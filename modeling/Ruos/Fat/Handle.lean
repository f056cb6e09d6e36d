import Ruos.Fat.Insert

/-! Growing the chain of a file, changing its record, and what reading and writing through a handle does to the volume
and to the handle. -/
namespace Ruos.Fat

open Lib Vfs Block ErrorFree Function List Fat32File

variable {b : Bpb} {v v' : Vol} {c n x : Nat} {cs cs' : List Nat}

/-- The volume after the free cluster `n` was put behind the clusters `cs`. -/
def linked (b : Bpb) (v : Vol) (cs : List Nat) (n : Nat) : Vol :=
  match cs.getLast? with
  | some last => (v.alloc b n).setFat last n
  | none => v.alloc b n

/-- Some free clusters were put behind `cs`, one after the other. -/
inductive Extends (b : Bpb) : Vol → List Nat → Vol → List Nat → Prop
  | refl (v : Vol) (cs : List Nat) : Extends b v cs v cs
  | step {v v' : Vol} {cs cs' : List Nat} {n : Nat} (hn : b.IsCluster n) (hfree : v.fat n = 0)
      (h : Extends b (linked b v cs n) (cs ++ [n]) v' cs') : Extends b v cs v' cs'

theorem clus_linked (v : Vol) (cs : List Nat) (n : Nat) : (linked b v cs n).clus = (v.alloc b n).clus := by
  unfold linked
  split <;> rfl

theorem mirrored_linked (v : Vol) (cs : List Nat) (n : Nat) : (linked b v cs n).mirrored = v.mirrored := by
  unfold linked
  split <;> rfl

theorem fat_linked_of_ne (hne : x ≠ n) (hlast : cs.getLast? ≠ some x) : (linked b v cs n).fat x = v.fat x := by
  unfold linked
  cases hcs : cs.getLast? with
  | none => exact fat_alloc_of_ne hne
  | some last =>
    have hx : x ≠ last := fun heq => hlast (heq ▸ hcs)
    exact (update_of_ne hx _ _).trans (fat_alloc_of_ne hne)

theorem fat_linked_self (hn : b.IsCluster n) (v : Vol) (cs : List Nat) : (linked b v cs n).fat n ≠ 0 := by
  have hpos : n ≠ 0 := by
    have htwo := hn.1
    omega
  unfold linked
  cases cs.getLast? with
  | none =>
    rw [fat_alloc_self]
    decide
  | some last =>
    by_cases heq : n = last
    · subst heq
      change Function.update (v.alloc b n).fat n n n ≠ 0
      rwa [update_self]
    · have hne : ((v.alloc b n).setFat last n).fat n = 0x0FFFFFFF :=
        (update_of_ne heq _ _).trans (fat_alloc_self v b n)
      exact hne.symm ▸ by decide

theorem fat_linked_ne_zero (hn : b.IsCluster n) (hx : v.fat x ≠ 0) : (linked b v cs n).fat x ≠ 0 := by
  by_cases hxn : x = n
  · exact hxn ▸ fat_linked_self hn v cs
  · by_cases hlast : cs.getLast? = some x
    · have htwo := hn.1
      have hset : (linked b v cs n).fat x = n := by
        unfold linked
        rw [hlast]
        exact update_self _ _ _
      omega
    · rw [fat_linked_of_ne hxn hlast]
      exact hx

/-- What growing a chain by `ns` does to the volume. -/
structure Grown (b : Bpb) (v : Vol) (cs : List Nat) (v' : Vol) (ns : List Nat) : Prop where
  isCluster : ∀ n ∈ ns, b.IsCluster n
  free : ∀ n ∈ ns, v.fat n = 0
  zeroed : ∀ n ∈ ns, v'.clus n = zeroCluster b
  nodup : ns.Nodup
  used : ∀ x, v.fat x ≠ 0 ∨ x ∈ ns → v'.fat x ≠ 0
  clus : ∀ x, x ∉ ns → v'.clus x = v.clus x
  fat : ∀ x, x ∉ ns → cs.getLast? ≠ some x → v'.fat x = v.fat x
  mirrored : v'.mirrored = v.mirrored

theorem Extends.grown (h : Extends b v cs v' cs') : ∃ ns, cs' = cs ++ ns ∧ Grown b v cs v' ns := by
  induction h with
  | refl v cs =>
    refine ⟨[], (append_nil cs).symm, ⟨by simp, by simp, by simp, nodup_nil, ?_, by simp, by simp, rfl⟩⟩
    simp
  | @step v v' cs cs' n hn hfree h ih =>
    obtain ⟨ns, rfl, hg⟩ := ih
    have hself := fat_linked_self hn v cs
    have hnew : n ∉ ns := fun hmem => hself (hg.free n hmem)
    refine ⟨n :: ns, by rw [append_assoc, singleton_append], ?_⟩
    constructor
    · exact forall_mem_cons.mpr ⟨hn, hg.isCluster⟩
    · refine forall_mem_cons.mpr ⟨hfree, fun m hm => ?_⟩
      by_contra hused
      exact fat_linked_ne_zero hn hused (hg.free m hm)
    · refine forall_mem_cons.mpr ⟨?_, hg.zeroed⟩
      rw [hg.clus n hnew, clus_linked, clus_alloc_self]
    · exact nodup_cons.mpr ⟨hnew, hg.nodup⟩
    · intro x hx
      rcases hx with hused | hmem
      · exact hg.used x (.inl (fat_linked_ne_zero hn hused))
      · rcases mem_cons.mp hmem with rfl | hmem
        · exact hg.used x (.inl hself)
        · exact hg.used x (.inr hmem)
    · intro x hx
      obtain ⟨hxn, hxs⟩ := not_or.mp (mem_cons.not.mp hx)
      rw [hg.clus x hxs, clus_linked, clus_alloc_of_ne hxn]
    · intro x hx hlast
      obtain ⟨hxn, hxs⟩ := not_or.mp (mem_cons.not.mp hx)
      rw [hg.fat x hxs (by simpa using fun heq => hxn heq.symm), fat_linked_of_ne hxn hlast]
    · rw [hg.mirrored, mirrored_linked]

theorem Extends.head? (h : Extends b v cs v' cs') (hne : cs ≠ []) : cs'.head? = cs.head? := by
  obtain ⟨ns, rfl, -⟩ := h.grown
  exact head?_append_of_ne_nil cs hne

theorem Extends.chained {blocks : Nat} (hw : b.WellSized blocks) (h : Extends b v cs v' cs')
    (hc : cs ≠ [] → Chained b v.fat c cs) (hhead : cs'.head? = some c) : Chained b v'.fat c cs' := by
  induction h with
  | refl v cs =>
    refine hc fun hnil => ?_
    rw [hnil] at hhead
    cases hhead
  | @step v v' cs cs' n hn hfree h ih =>
    refine ih (fun _ => ?_) hhead
    unfold linked
    cases hlast : cs.getLast? with
    | none =>
      have hnil := getLast?_eq_none_iff.mp hlast
      subst hnil
      have heq : c = n := by
        rw [h.head? (by simp)] at hhead
        simpa using hhead.symm
      rw [heq]
      exact chained_alloc hw v hn
    | some last =>
      have hchain := hc fun hnil => by
        rw [hnil] at hlast
        cases hlast
      have hmem := hchain.notMem_of_free hfree
      exact (hchain.alloc hfree).link hlast (chained_alloc hw v hn) (mem_singleton_self n)
        (disjoint_singleton.mpr hmem)

def patchFields (cluster size : Nat) : List (Nat × List UInt8) :=
  [(20, leBytes 2 (cluster / 65536)), (26, leBytes 2 cluster), (28, leBytes 4 size)]

def patched (rec : List UInt8) (cluster size : Nat) : List UInt8 := fill rec (patchFields cluster size)

theorem patchFields_ordered (cluster size : Nat) : Ordered 32 (patchFields cluster size) := by
  refine (ordered_of_inOrder (a := 0) ?_).1
  simp only [patchFields, map_cons, map_nil, length_leBytes]
  decide

section

variable {rec : List UInt8} (hrec : rec.length = 32)
include hrec

theorem length_patched (cluster size : Nat) : (patched rec cluster size).length = 32 := by
  rw [patched, length_fill (by rw [hrec]; exact (patchFields_ordered cluster size).1), hrec]

theorem slice_patched {off k : Nat} (h : off + k ≤ 20) (cluster size : Nat) :
    slice (patched rec cluster size) off k = slice rec off k := by
  refine slice_fill_disjoint (by rw [hrec]; exact (patchFields_ordered cluster size).1) fun f hf => .inl ?_
  simp only [patchFields, mem_cons, not_mem_nil, or_false] at hf
  rcases hf with rfl | rfl | rfl <;> omega

theorem recCluster_patched {cluster : Nat} (hc : cluster < 2 ^ 32) (size : Nat) :
    recCluster (patched rec cluster size) = cluster := by
  have hord : Ordered rec.length (patchFields cluster size) := hrec ▸ patchFields_ordered cluster size
  have hhi : slice (patched rec cluster size) 20 2 = leBytes 2 (cluster / 65536) :=
    slice_fill_mem hord (by simp [patchFields]) (length_leBytes ..)
  have hlo : slice (patched rec cluster size) 26 2 = leBytes 2 cluster :=
    slice_fill_mem hord (by simp [patchFields]) (length_leBytes ..)
  rw [recCluster, field, field, hhi, hlo, leVal_leBytes, leVal_leBytes]
  omega

theorem recSize_patched (cluster : Nat) {size : Nat} (hs : size < 2 ^ 32) :
    recSize (patched rec cluster size) = size := by
  have hord : Ordered rec.length (patchFields cluster size) := hrec ▸ patchFields_ordered cluster size
  have hsize : slice (patched rec cluster size) 28 4 = leBytes 4 size :=
    slice_fill_mem hord (by simp [patchFields]) (length_leBytes ..)
  rw [recSize, field, hsize, leVal_leBytes_of_lt (by omega)]

end

theorem updateRecord_eq {sec : List UInt8} {e : DirEntry} (h : e.recOff + 32 ≤ sec.length) :
    Fat32File.updateRecord sec e = splice sec e.recOff (patched (slice sec e.recOff 32) e.cluster e.size) :=
  fill_at (patchFields_ordered e.cluster e.size).1 h

/-- The entry's record is number `i` of the cluster `d`. -/
structure DirEntry.At (e : DirEntry) (b : Bpb) (d i : Nat) : Prop where
  isCluster : b.IsCluster d
  lt : i < b.clusterBytes / 32
  loc : (e.recSec, e.recOff) = recordLoc b d i

def Vol.patch (v : Vol) (d i cluster size : Nat) : Vol :=
  v.setClus d (splice (v.clus d) (i * 32) (patched (slice (v.clus d) (i * 32) 32) cluster size))

section

variable {S : Type} [BlockDevice S] [ErrorFree S] {s₀ : S} (hw : b.WellSized (blocks s₀))
include hw

theorem runs_linkTail (hcs : ∀ x ∈ cs, b.IsCluster x) (hn : b.IsCluster n) :
    Runs (Holds b s₀) (Fat32File.linkTail b cs n) (v.alloc b n) (.ok ()) (linked b v cs n) := by
  unfold linkTail linked
  cases hlast : cs.getLast? with
  | none => exact Runs.pure () _
  | some last =>
    have hset := runs_writeFatEntry (v := v.alloc b n) hw (hcs last (mem_of_getLast? hlast)) n
    rwa [mod_of_isCluster hw hn] at hset

theorem meets_extend (k : Nat) (hcs : ∀ x ∈ cs, b.IsCluster x) :
    Meets (Holds b s₀) (Fat32File.extend b k cs) v fun r v' => ∃ cs', Extends b v cs v' cs' ∧
        ((r = .ok cs' ∧ cs'.length = cs.length + k) ∨
          (r = .error .noSpace ∧ cs'.length < cs.length + k ∧ NoFree b v')) := by
  induction k generalizing v cs with
  | zero => exact Meets.of_runs (Runs.pure cs v) ⟨cs, .refl v cs, .inl ⟨rfl, rfl⟩⟩
  | succ k ih =>
    refine meets_alloc_bind (meets_allocCluster hw v) (fun n hn hfree => ?_)
      fun hfull => ⟨cs, .refl v cs, .inr ⟨rfl, by omega, hfull rfl⟩⟩
    have hcs' : ∀ x ∈ cs ++ [n], b.IsCluster x := by
      intro x hx
      rcases mem_append.mp hx with hx | hx
      · exact hcs x hx
      · exact mem_singleton.mp hx ▸ hn
    refine Meets.bind_runs (runs_linkTail hw hcs hn) ((ih hcs').mono fun r v' hpost => ?_)
    obtain ⟨cs', hext, hr⟩ := hpost
    rw [length_append, length_singleton, Nat.add_assoc, Nat.add_comm 1 k] at hr
    exact ⟨cs', .step hn hfree hext, hr⟩

theorem runs_updateEntryOnDisk {e : DirEntry} {d i : Nat} (hat : e.At b d i) :
    Runs (Holds b s₀) (Fat32File.updateEntryOnDisk e) v (.ok ()) (v.patch d i e.cluster e.size) := by
  obtain ⟨hd, hi, hloc⟩ := hat
  obtain ⟨hsec, hoff⟩ := Prod.mk.inj hloc
  have hin := hw.sector_le hd
  have hcb : b.clusterBytes = 512 * b.secPerCluster := rfl
  have hmod : 512 * (i * 32 / 512) + i * 32 % 512 = i * 32 := Nat.div_add_mod _ _
  have hbound : i * 32 % 512 + 32 ≤ 512 := by omega
  have hsector : 512 * (i * 32 / 512) + 512 ≤ b.clusterBytes := by omega
  refine Holds.of_stored fun m hm => ?_
  have hread : m.read (512 * e.recSec) 512 = slice (v.clus d) (512 * (i * 32 / 512)) 512 := by
    rw [hm.clus d hd, Mem.slice_read hsector, hsec, Bpb.clusterAddr, Nat.mul_add]
  have hclus := hm.length_clus hd
  have hrec : (patched (slice (v.clus d) (i * 32) 32) e.cluster e.size).length = 32 :=
    length_patched (length_slice (by omega)) _ _
  have hupdate : updateRecord (m.read (512 * e.recSec) 512) e =
      splice (m.read (512 * e.recSec) 512) (i * 32 % 512) (patched (slice (v.clus d) (i * 32) 32) e.cluster e.size) := by
    rw [updateRecord_eq (by rw [Mem.length_read, hoff]; exact hbound), hoff, hread, slice_slice hbound, hmod]
  have hlen : (updateRecord (m.read (512 * e.recSec) 512) e).length = 512 * 1 := by
    rw [hupdate, length_splice (by rw [Mem.length_read, hrec]; exact hbound), Mem.length_read]
  refine ⟨_, (runs_readSector (by omega)).bind (runs_writeSector Nat.one_pos hlen (by omega)), ?_⟩
  have hwrite : m.write (512 * e.recSec) (updateRecord (m.read (512 * e.recSec) 512) e) =
      m.write (b.clusterAddr d)
        (splice (v.clus d) (i * 32) (patched (slice (v.clus d) (i * 32) 32) e.cluster e.size)) := by
    rw [hupdate, Mem.write_splice_read (by rw [hrec]; exact hbound), hm.clus d hd,
      Mem.write_splice_read (by rw [← hm.clus d hd]; omega), hsec, Bpb.clusterAddr, Nat.mul_add, Nat.add_assoc, hmod]
  rw [hwrite]
  exact hm.setClus hw hd (by rw [length_splice (by rw [hrec]; omega), hclus])
end
end Ruos.Fat

namespace Ruos.Fat

open Lib Vfs Block ErrorFree Runs Fat32File Meets List

variable {S : Type} [BlockDevice S] [ErrorFree S] {s₀ : S} {b : Bpb} {v v' : Vol} {f : Fat32File} {cs : List Nat}
  {α : Type}

/-- A handle `a.2` that is open on a state that holds the volume `a.1`. -/
def Opens (b : Bpb) (s₀ : S) (o : Opened S) (a : Vol × Fat32File) : Prop := Holds b s₀ o.fs a.1 ∧ o.file = a.2

theorem meets_onFs {x : FatM S α} {Q : Except VfsError α → Vol → Prop} (hx : Meets (Holds b s₀) x v Q) :
    Meets (Opens b s₀) (onFs x) (v, f) fun r a => ∃ r₀, Q r₀ a.1 ∧ r = r₀.mapError Fault.err ∧ a.2 = f := by
  intro o ho
  obtain ⟨r, t, v', hrun, ht, hQ⟩ := hx o.fs ho.1
  refine ⟨r.mapError Fault.err, { o with fs := t }, (v', f), ?_, ⟨ht, ho.2⟩, r, hQ, rfl, rfl⟩
  rw [onFs, hrun]
  cases r <;> rfl

theorem runs_onFs {x : FatM S α} {c : α} (f : Fat32File) (hx : Runs (Holds b s₀) x v (.ok c) v') :
    Runs (Opens b s₀) (onFs x) (v, f) (.ok c) (v', f) := by
  intro o ho
  obtain ⟨t, hrun, ht⟩ := hx o.fs ho.1
  refine ⟨{ o with fs := t }, ?_, ht, ho.2⟩
  rw [onFs, hrun]
  rfl

theorem runs_modifyFile (g : Fat32File → Fat32File) (v : Vol) (f : Fat32File) :
    Runs (Opens b s₀) (modifyFile g) (v, f) (.ok ()) (v, g f) := by
  intro o ho
  exact ⟨{ o with file := g o.file }, rfl, ho.1, congrArg g ho.2⟩

theorem Meets.getFile {x : Opened S → FileM S α} {Q : Except Fault α → Vol × Fat32File → Prop}
    (h : ∀ o : Opened S, o.file = f → Meets (Opens b s₀) (x o) (v, f) Q) : Meets (Opens b s₀) (get >>= x) (v, f) Q := by
  intro o ho
  exact h o ho.2 o ho

/-- The clusters that a handle works on: those it has cached, or the chain on the volume. -/
def Known (b : Bpb) (v : Vol) (f : Fat32File) (cs : List Nat) : Prop :=
  f.cached = some cs ∨ (f.cached = none ∧ Chained b v.fat f.entry.cluster cs)

def Fat32File.caching (f : Fat32File) (cs : List Nat) : Fat32File := { f with cached := some cs }

variable (hw : b.WellSized (blocks s₀))
include hw

theorem runs_ensureChain (hcs : Known b v f cs) :
    Runs (Opens b s₀) (Fat32File.ensureChain b f) (v, f) (.ok cs) (v, f.caching cs) := by
  unfold ensureChain
  rcases hcs with hcached | ⟨hnone, hc⟩
  · rw [hcached]
    have hsame : f.caching cs = f := by
      rw [caching, ← hcached]
    rw [hsame]
    exact pure cs (v, f)
  · rw [hnone]
    exact (runs_onFs f (runs_chain hw hc)).bind ((runs_modifyFile _ v f).bind (pure cs _))

def seekTo (f : Fat32File) (off : Int) (whence : Whence) : Int :=
  Fat32File.saturatingAdd (Fat32File.seekBase f whence) off

omit hw in
theorem runs_seek_error {off : Int} {whence : Whence} (hneg : seekTo f off whence < 0) :
    Runs (Opens b s₀) (Fat32File.seek off whence : FileM S Nat) (v, f) (.error (.err .invalidPath)) (v, f) := by
  refine get_bind fun o ho => (pure _ _).bind ?_
  rw [ho.2]
  exact (failIf_true hneg _ _).bind_error

omit hw in
theorem runs_seek {off : Int} {whence : Whence} (hpos : ¬ seekTo f off whence < 0) :
    Runs (Opens b s₀) (Fat32File.seek off whence : FileM S Nat) (v, f) (.ok (seekTo f off whence).toNat)
      (v, { f with pos := (seekTo f off whence).toNat }) := by
  refine get_bind fun o ho => (pure _ _).bind ?_
  rw [ho.2]
  exact (failIf_false hpos _ _).bind ((runs_modifyFile _ v f).bind (pure _ _))

omit hw in
theorem runs_read_end {len : Nat} (h : f.entry.size ≤ f.pos ∨ len = 0) :
    Runs (Opens b s₀) (Fat32File.read b len) (v, f) (.ok []) (v, f) := by
  refine get_bind fun o ho => ?_
  rw [ho.2, if_pos h]
  exact pure [] _

def readLen (b : Bpb) (f : Fat32File) (len : Nat) : Nat :=
  min (min len (b.clusterBytes - f.pos % b.clusterBytes)) (f.entry.size - f.pos)

theorem runs_read {len c : Nat} (hcs : Known b v f cs) (hlt : ¬ (f.entry.size ≤ f.pos ∨ len = 0))
    (hc : cs[f.pos / b.clusterBytes]? = some c) (hn : b.IsCluster c) :
    Runs (Opens b s₀) (Fat32File.read b len) (v, f) (.ok (slice (v.clus c) (f.pos % b.clusterBytes) (readLen b f len)))
      (v, { f.caching cs with
        pos := f.pos + (slice (v.clus c) (f.pos % b.clusterBytes) (readLen b f len)).length }) := by
  refine get_bind fun o ho => ?_
  rw [ho.2, if_neg hlt]
  refine (runs_ensureChain hw hcs).bind ?_
  simp only [hc]
  exact (runs_onFs _ (runs_readCluster hw hn)).bind
    ((pure _ _).bind ((runs_modifyFile _ v _).bind (pure _ _)))

def writeLen (b : Bpb) (pos len : Nat) : Nat := min len (b.clusterBytes - pos % b.clusterBytes)

/-- What a non-empty write through `f`, which works on the clusters `cs`, does; the record of the file is number `i`
of the cluster `d`. -/
inductive Wrote (b : Bpb) (v : Vol) (f : Fat32File) (cs : List Nat) (d i : Nat) (buf : List UInt8) :
    Except Fault Nat → Vol × Fat32File → Prop
  | panic (h : 2 ^ 64 ≤ f.pos + buf.length + b.clusterBytes) :
      Wrote b v f cs d i buf (.error .panic) (v, f.caching cs)
  | noSpace {v' : Vol} {cs' : List Nat} (hext : Extends b v cs v' cs')
      (hlen : cs'.length < Fat32File.neededClusters b (f.pos + buf.length)) (hfull : NoFree b v') :
      Wrote b v f cs d i buf (.error (.err .noSpace)) (v', f.caching cs)
  | stored {v' : Vol} {cs' : List Nat} {first c : Nat} (hext : Extends b v cs v' cs')
      (hlen : cs'.length = max cs.length (Fat32File.neededClusters b (f.pos + buf.length)))
      (hfirst : cs'.head? = some first) (hc : cs'[f.pos / b.clusterBytes]? = some c) :
      Wrote b v f cs d i buf (.ok (writeLen b f.pos buf.length))
        ((v'.setClus c (splice (v'.clus c) (f.pos % b.clusterBytes) (buf.take (writeLen b f.pos buf.length)))).patch d i
            first (Fat32File.advanced first (writeLen b f.pos buf.length) f).entry.size,
          Fat32File.advanced first (writeLen b f.pos buf.length) (f.caching cs'))

omit hw in
theorem clusterBytes_pos {blocks : Nat} (hw : b.WellSized blocks) : 0 < b.clusterBytes := by
  have hspc := hw.spc_pos
  unfold Bpb.clusterBytes
  omega

omit hw in
theorem div_lt_neededClusters {blocks pos len : Nat} (hw : b.WellSized blocks) (hlen : 0 < len) :
    pos / b.clusterBytes < Fat32File.neededClusters b (pos + len) := by
  have hcb := clusterBytes_pos hw
  have hmul := Nat.lt_div_mul_add (a := pos + len + b.clusterBytes - 1) hcb
  rw [neededClusters, Nat.div_lt_iff_lt_mul hcb]
  omega

theorem runs_writeAt {first c d i : Nat} {buf : List UInt8} (hfirst : cs.head? = some first)
    (hc : cs[f.pos / b.clusterBytes]? = some c) (hn : b.IsCluster c) (hat : f.entry.At b d i) :
    Runs (Opens b s₀) (Fat32File.writeAt b cs f.pos buf) (v, f) (.ok (writeLen b f.pos buf.length))
      ((v.setClus c (splice (v.clus c) (f.pos % b.clusterBytes) (buf.take (writeLen b f.pos buf.length)))).patch d i
          first (Fat32File.advanced first (writeLen b f.pos buf.length) f).entry.size,
        Fat32File.advanced first (writeLen b f.pos buf.length) f) := by
  refine fun o ho => (?_ : Runs (Opens b s₀) _ (v, f) _ _) o ho
  have hsized := ho.1.sized
  have hcb := clusterBytes_pos hw
  have hmod := Nat.mod_lt f.pos hcb
  have htake : (buf.take (writeLen b f.pos buf.length)).length = writeLen b f.pos buf.length := by
    rw [length_take]
    unfold writeLen
    omega
  have hfits : f.pos % b.clusterBytes + (buf.take (writeLen b f.pos buf.length)).length ≤ (v.clus c).length := by
    rw [htake, hsized c hn]
    unfold writeLen
    omega
  have hdata : (splice (v.clus c) (f.pos % b.clusterBytes) (buf.take (writeLen b f.pos buf.length))).length =
      b.clusterBytes := by
    rw [length_splice hfits, hsized c hn]
  unfold writeAt
  simp only [hfirst, hc]
  refine (runs_onFs _ (runs_readCluster hw hn)).bind ((pure _ _).bind ?_)
  refine (runs_onFs _ (runs_writeCluster hw hn hdata)).bind ((runs_modifyFile _ _ _).bind ?_)
  refine get_bind fun o ho => ?_
  rw [ho.2]
  have hat' : (advanced first (writeLen b f.pos buf.length) f).entry.At b d i := { hat with }
  exact (runs_onFs _ (runs_updateEntryOnDisk hw hat')).bind (pure _ _)

inductive Lengthened (b : Bpb) (v : Vol) (f : Fat32File) (cs : List Nat) (needed : Nat) :
    Except Fault (List Nat) → Vol × Fat32File → Prop
  | ok {v' : Vol} {cs' : List Nat} (hext : Extends b v cs v' cs') (hlen : cs'.length = max cs.length needed) :
      Lengthened b v f cs needed (.ok cs') (v', f.caching cs')
  | noSpace {v' : Vol} {cs' : List Nat} (hext : Extends b v cs v' cs') (hlen : cs'.length < needed)
      (hfull : NoFree b v') : Lengthened b v f cs needed (.error (.err .noSpace)) (v', f.caching cs)

theorem meets_longChain (needed : Nat) (hmem : ∀ x ∈ cs, b.IsCluster x) :
    Meets (Opens b s₀) (Fat32File.longChain b needed cs) (v, f.caching cs) (Lengthened b v f cs needed) := by
  unfold longChain
  by_cases hgrow : cs.length < needed
  · rw [if_pos hgrow]
    refine (meets_onFs (meets_extend hw (needed - cs.length) hmem)).bind ?_ ?_
    · rintro cs' ⟨v', g⟩ ⟨r₀, ⟨cs'', hext, ⟨rfl, hlen⟩ | ⟨rfl, -⟩⟩, hr, rfl⟩
      · cases hr
        exact of_runs ((runs_modifyFile _ v' _).bind (pure cs' _)) (.ok hext (by omega))
      · cases hr
    · rintro e ⟨v', g⟩ ⟨r₀, ⟨cs'', hext, ⟨rfl, -⟩ | ⟨rfl, hlen, hfull⟩⟩, hr, rfl⟩
      · cases hr
      · obtain rfl := Except.error.inj hr
        exact .noSpace hext (by omega) hfull
  · rw [if_neg hgrow]
    exact of_runs (pure cs _) (.ok (.refl v cs) (by omega))

omit [BlockDevice S] [ErrorFree S] hw in
theorem Extends.isCluster {cs' : List Nat} {x : Nat} (h : Extends b v cs v' cs') (hmem : ∀ x ∈ cs, b.IsCluster x)
    (hx : x ∈ cs') : b.IsCluster x := by
  obtain ⟨ns, rfl, hgrown⟩ := h.grown
  rcases mem_append.mp hx with hx | hx
  · exact hmem x hx
  · exact hgrown.isCluster x hx

omit [BlockDevice S] [ErrorFree S] hw in
theorem DirEntry.At.truncated {d i : Nat} (hat : f.entry.At b d i) : f.truncated.entry.At b d i := by
  unfold Fat32File.truncated
  split
  · exact { hat with }
  · exact hat

theorem meets_write {d i : Nat} {buf : Buf} (hne : buf.val ≠ []) (hcs : Known b v f.truncated cs)
    (hmem : ∀ x ∈ cs, b.IsCluster x) (hat : f.entry.At b d i) :
    Meets (Opens b s₀) (Fat32File.write b buf) (v, f) (Wrote b v f.truncated cs d i buf.val) := by
  have hat' := hat.truncated
  generalize hf : f.truncated = g at hcs hat' ⊢
  have htrunc : Runs (Opens b s₀) (modifyFile truncated) (v, f) (.ok ()) (v, g) := hf ▸ runs_modifyFile _ v f
  unfold write
  rw [if_neg hne]
  refine bind_runs htrunc (getFile fun o ho => ?_)
  rw [ho]
  refine bind_runs (runs_ensureChain hw hcs) ?_
  by_cases hpanic : 2 ^ 64 ≤ g.pos + buf.val.length + b.clusterBytes
  · exact of_runs (failIf_true hpanic _ _).bind_error (.panic hpanic)
  refine bind_runs (failIf_false hpanic _ _) ((meets_longChain hw _ hmem).bind ?_ ?_)
  · rintro cs' a hlong
    cases hlong with
    | @ok v' _ hext hlen =>
      have hneed : g.pos / b.clusterBytes < neededClusters b (g.pos + buf.val.length) :=
        div_lt_neededClusters hw (length_pos_of_ne_nil hne)
      have hlt : g.pos / b.clusterBytes < cs'.length := by omega
      have hhead : cs'.head?.isSome := isSome_head?.mpr (ne_nil_of_length_pos (Nat.zero_lt_of_lt hlt))
      obtain ⟨first, hfirst⟩ := Option.isSome_iff_exists.mp hhead
      have hc := getElem?_eq_getElem hlt
      have hn := hext.isCluster hmem (mem_of_getElem? hc)
      exact of_runs (runs_writeAt hw hfirst hc hn ⟨hat'.isCluster, hat'.lt, hat'.loc⟩)
        (.stored hext hlen hfirst hc)
  · rintro e a hlong
    cases hlong with
    | noSpace hext hlen hfull => exact .noSpace hext hlen hfull

end Ruos.Fat
