import Ruos.Fat.TreeMake
import Ruos.Fat.TreeWrite

/-! A volume with any number of files open on it: the calls, and what a file that is open knows of the volume. -/
namespace Ruos.Fat

open Lib Vfs Block ErrorFree List Fat32File

structure Driver (S : Type) where
  fs : S
  files : List Fat32File

inductive Call where
  | create (path : List Name)
  | mkdir (path : List Name)
  | openFile (path : List Name) (flags : OpenFlags)
  | file (k : Nat) (op : FileOp)

def Driver.step {S : Type} [BlockDevice S] [Unicode] (b : Bpb) (s : Driver S) : Call → Driver S
  | .create path => { s with fs := (reply (Fat.create b path) s.fs).2 }
  | .mkdir path => { s with fs := (reply (Fat.mkdir b path) s.fs).2 }
  | .openFile path flags =>
    match Fat.openFile b path flags s.fs with
    | .ok f fs => { fs, files := s.files ++ [f] }
    | .error _ fs => { s with fs }
  | .file k op =>
    match s.files[k]? with
    | none => s
    | some f =>
      let o := (fileStep b ⟨s.fs, f⟩ op).2
      { fs := o.fs, files := s.files.set k o.file }

section

variable [Unicode] {b : Bpb} {v v' v'' : Vol} {f : Fat32File} {e : DirEntry} {h d i : Nat} {cs cs' : List Nat}

/-- What is left of a volume in a later one: records stay where they are, with their first clusters, and chains only
grow at the end. -/
structure Keeps (b : Bpb) (v v' : Vol) : Prop where
  record : ∀ e, IsRecord b v e → ∃ e', IsRecord b v' e' ∧ e'.isDir = e.isDir ∧ e'.cluster = e.cluster ∧
    (e'.recSec, e'.recOff) = (e.recSec, e.recOff)
  chain : ∀ h, IsHead b v h → chainOf b v.fat h <+: chainOf b v'.fat h

theorem Keeps.refl (b : Bpb) (v : Vol) : Keeps b v v :=
  ⟨fun e he => ⟨e, he, rfl, rfl, rfl⟩, fun _ _ => List.prefix_refl _⟩

theorem Keeps.isHead (hk : Keeps b v v') (hh : IsHead b v h) : IsHead b v' h := by
  rcases hh with rfl | ⟨e, he, rfl⟩
  · exact .inl rfl
  · obtain ⟨e', he', -, hcluster, -⟩ := hk.record e he
    exact .inr ⟨e', he', hcluster⟩

theorem Keeps.trans (hk : Keeps b v v') (hk' : Keeps b v' v'') : Keeps b v v'' where
  record := by
    intro e he
    obtain ⟨e', he', hdir, hcluster, hloc⟩ := hk.record e he
    obtain ⟨e'', he'', hdir', hcluster', hloc'⟩ := hk'.record e' he'
    exact ⟨e'', he'', hdir'.trans hdir, hcluster'.trans hcluster, hloc'.trans hloc⟩
  chain := fun h hh => (hk.chain h hh).trans (hk'.chain h (hk.isHead hh))

theorem MapsDirs.keeps {φ : DirEntry → DirEntry} (hm : MapsDirs b v v' φ)
    (hloc : ∀ e, ((φ e).recSec, (φ e).recOff) = (e.recSec, e.recOff))
    (hchain : ∀ h, IsHead b v h → chainOf b v.fat h <+: chainOf b v'.fat h) : Keeps b v v' :=
  ⟨fun e he => ⟨φ e, hm.isRecord.mpr ⟨e, he, rfl⟩, hm.isDir e, hm.cluster e, hloc e⟩, hchain⟩

/-- An open file is that of a record, and works on the chain of the record or the first part of it. -/
structure Attached (b : Bpb) (v : Vol) (f : Fat32File) : Prop where
  record : ∃ e, IsRecord b v e ∧ e.isDir = false ∧ e.cluster = f.entry.cluster ∧
    (e.recSec, e.recOff) = (f.entry.recSec, f.entry.recOff)
  clusters : handleClusters b v f <+: chainOf b v.fat f.entry.cluster
  nonempty : handleClusters b v f ≠ []
  size_le : f.entry.size ≤ (handleClusters b v f).length * b.clusterBytes
  size_lt : f.entry.size < 2 ^ 32

namespace Attached

variable (ha : Attached b v f)
include ha

theorem isHead : IsHead b v f.entry.cluster := by
  obtain ⟨e, he, -, hcluster, -⟩ := ha.record
  exact hcluster ▸ he.isHead

theorem mono (hk : Keeps b v v') : Attached b v' f := by
  obtain ⟨e, he, hfile, hcluster, hloc⟩ := ha.record
  obtain ⟨e', he', hdir', hcluster', hloc'⟩ := hk.record e he
  have hchain := hk.chain _ ha.isHead
  have hclusters : handleClusters b v f <+: handleClusters b v' f ∧
      handleClusters b v' f <+: chainOf b v'.fat f.entry.cluster := by
    have hold := ha.clusters
    unfold handleClusters at hold ⊢
    cases hcached : f.cached with
    | none => exact ⟨hchain, prefix_refl _⟩
    | some cs =>
      rw [hcached] at hold
      exact ⟨prefix_refl _, hold.trans hchain⟩
  have hlen := Nat.mul_le_mul_right b.clusterBytes hclusters.1.length_le
  constructor
  · exact ⟨e', he', hdir'.trans hfile, hcluster'.trans hcluster, hloc'.trans hloc⟩
  · exact hclusters.2
  · intro hnil
    rw [hnil] at hclusters
    exact ha.nonempty (prefix_nil.mp hclusters.1)
  · exact Nat.le_trans ha.size_le hlen
  · exact ha.size_lt

theorem move (pos : Nat) : Attached b v { f with pos } := { ha with }

theorem caching : Attached b v (f.caching (handleClusters b v f)) :=
  { ha with }

theorem known (t : Tree b v) : Known b v f (handleClusters b v f) := by
  unfold handleClusters Known
  cases hcached : f.cached with
  | none => exact .inr ⟨rfl, t.chained _ ha.isHead⟩
  | some cs => exact .inl rfl

theorem isCluster (t : Tree b v) {x : Nat} (hx : x ∈ handleClusters b v f) : b.IsCluster x :=
  (t.chained _ ha.isHead).isCluster (ha.clusters.subset hx)

theorem exists_at (t : Tree b v) (hsized : Sized b v) : ∃ d i, f.entry.At b d i := by
  obtain ⟨e, ⟨P, hP, he, -⟩, -, -, hloc⟩ := ha.record
  obtain ⟨d, -, i, hat, -⟩ := exists_record hsized (t.chained P hP.isHead) he
  exact ⟨d, i, hat.isCluster, hat.lt, hloc.symm.trans hat.loc⟩

theorem truncated (t : Tree b v) {blocks : Nat} (hw : b.WellSized blocks) : Attached b v f.truncated := by
  unfold Fat32File.truncated
  split_ifs
  · exact ⟨ha.record, prefix_refl _, ne_nil_of_mem (t.mem_chainOf hw ha.isHead), Nat.zero_le _,
      Nat.two_pow_pos 32⟩
  · exact ha

end Attached

/-- A write of `len` bytes through `f` may extend the file: it needs no more clusters than `f` knows of, these are all
that the file has, or no cluster is free. -/
def Extendable (b : Bpb) (v : Vol) (f : Fat32File) (len : Nat) : Prop :=
  Fat32File.neededClusters b (f.pos + len) ≤ (handleClusters b v f).length ∨
    handleClusters b v f = chainOf b v.fat f.entry.cluster ∨ NoFree b v

omit [Unicode] in
theorem Extends.eq_of_length (hext : Extends b v cs v' cs') (hlen : cs'.length ≤ cs.length) : v' = v ∧ cs' = cs := by
  cases hext with
  | refl => exact ⟨rfl, rfl⟩
  | step hn hfree hext =>
    obtain ⟨ns, rfl, -⟩ := hext.grown
    simp at hlen

omit [Unicode] in
theorem Extends.eq_of_noFree (hext : Extends b v cs v' cs') (hfull : NoFree b v) : v' = v ∧ cs' = cs := by
  cases hext with
  | refl => exact ⟨rfl, rfl⟩
  | step hn hfree hext => exact absurd hfree (hfull _ hn)

omit [Unicode] in
theorem size_advanced_lt {first n : Nat} (h : f.entry.size < 2 ^ 32) :
    (Fat32File.advanced first n f).entry.size < 2 ^ 32 := by
  dsimp only [advanced]
  split_ifs
  · exact Nat.mod_lt _ (Nat.two_pow_pos 32)
  · exact h

section

variable {blocks c size : Nat} {data : List UInt8} (t : Tree b v) (hw : b.WellSized blocks)
include t hw

theorem Tree.keeps_grown (he : IsRecord b v e) (hfile : e.isDir = false)
    (hext : Extends b v (chainOf b v.fat e.cluster) v' cs) : Keeps b v v' := by
  refine (t.sameDirs_grown he hfile hext).maps.keeps (fun _ => rfl) fun h hh => ?_
  by_cases heq : h = e.cluster
  · rw [heq, (t.chained_grown hw he hext).chainOf_eq]
    obtain ⟨ns, rfl, -⟩ := hext.grown
    exact prefix_append _ _
  · exact (t.chainOf_of_same hh fun x hx => (t.same_grown he hext hh heq hx).1).2 ▸ prefix_refl _

/-- Extending the clusters of an open file, if it may be done, extends the chain of the file. -/
theorem Attached.extend (ha : Attached b v f) (hext : Extends b v (handleClusters b v f) v' cs)
    (hok : cs.length ≤ (handleClusters b v f).length ∨
      handleClusters b v f = chainOf b v.fat f.entry.cluster ∨ NoFree b v) :
    Tree b v' ∧ Keeps b v v' ∧ cs <+: chainOf b v'.fat f.entry.cluster ∧ handleClusters b v f <+: cs := by
  by_cases hsame : v' = v ∧ cs = handleClusters b v f
  · obtain ⟨rfl, rfl⟩ := hsame
    exact ⟨t, .refl b v', ha.clusters, prefix_refl _⟩
  rcases hok with hlen | hall | hfull
  · exact absurd (hext.eq_of_length hlen) hsame
  · obtain ⟨e, he, hfile, hcluster, -⟩ := ha.record
    rw [hall, ← hcluster] at hext
    rw [hall, ← hcluster, (t.chained_grown hw he hext).chainOf_eq]
    refine ⟨t.grow hw he hfile hext, t.keeps_grown hw he hfile hext, prefix_refl _, ?_⟩
    obtain ⟨ns, rfl, -⟩ := hext.grown
    exact prefix_append _ _
  · exact absurd (hext.eq_of_noFree hfull) hsame

theorem Tree.store (hsized : Sized b v) (he : IsRecord b v e) (hfile : e.isDir = false) (hat : e.At b d i)
    (hc : c ∈ chainOf b v.fat e.cluster) (hdata : data.length = b.clusterBytes) (hsize : size < 2 ^ 32)
    (hle : size ≤ (chainOf b v.fat e.cluster).length * b.clusterBytes) :
    Tree b ((v.setClus c data).patch d i e.cluster size) ∧ Keeps b v ((v.setClus c data).patch d i e.cluster size) ∧
      IsRecord b ((v.setClus c data).patch d i e.cluster size) { e with size } := by
  have hs : SameDirs b v (v.setClus c data) := t.sameDirs_setData he hfile hc
  have t' : Tree b (v.setClus c data) := t.setData he hfile hc
  have he' := hs.isRecord.mpr he
  have hsized' : Sized b (v.setClus c data) := hsized.setClus hdata
  have hlt := lt_of_isCluster hw (t.live _ he.isHead)
  have hm := t'.mapsDirs_patch hsized' he' hat hlt hsize
  refine ⟨t'.patch hsized' he' hat hlt hsize hle, ?_, hm.isRecord.mpr ⟨e, he', resized_self e size⟩⟩
  exact (hs.maps.keeps (fun _ => rfl) fun _ _ => prefix_refl _).trans
    (hm.keeps (fun x => loc_resized x) fun _ _ => prefix_refl _)

omit [Unicode] t in
theorem writeLen_le {pos len : Nat} (hc : cs[pos / b.clusterBytes]? = some c) :
    pos + writeLen b pos len ≤ cs.length * b.clusterBytes := by
  have hcb := clusterBytes_pos hw
  have hidx := (List.getElem?_eq_some_iff.mp hc).1
  have hmul := mul_add_le_mul b.clusterBytes hidx
  have hdiv : pos / b.clusterBytes * b.clusterBytes + pos % b.clusterBytes = pos := Nat.div_add_mod' _ _
  have hmod := Nat.mod_lt pos hcb
  unfold writeLen
  omega

theorem Attached.wrote (hsized : Sized b v) (ha : Attached b v f) (hat : f.entry.At b d i) {buf : List UInt8}
    (hok : Extendable b v f buf.length) {r : Except Fault Nat} {a : Vol × Fat32File}
    (hwrote : Wrote b v f (handleClusters b v f) d i buf r a) : Tree b a.1 ∧ Keeps b v a.1 ∧ Attached b a.1 a.2 := by
  cases hwrote with
  | panic => exact ⟨t, .refl b v, ha.caching⟩
  | noSpace hext hlen hfull =>
    obtain ⟨t', hk, -⟩ := ha.extend t hw hext (hok.imp_left fun hle => by omega)
    exact ⟨t', hk, ha.caching.mono hk⟩
  | @stored v' cs' first c hext hlen hfirst hc =>
    obtain ⟨t', hk, hpre, hold⟩ := ha.extend t hw hext (hok.imp_left fun hle => by omega)
    have ha' := ha.mono hk
    obtain ⟨e, he, hfile, hcluster, hloc⟩ := ha'.record
    have hsized' : Sized b v' := by
      obtain ⟨ns, -, hg⟩ := hext.grown
      exact hg.sized hsized
    have heq : first = e.cluster := by
      have hhead := (t'.chained _ he.isHead).walk.head? (onChain_of_isCluster hw (t'.live _ he.isHead))
      rw [← hcluster] at hpre
      obtain ⟨rest, hrest⟩ := hpre
      rw [← hrest, head?_append_of_ne_nil _ (ne_nil_of_mem (mem_of_getElem? hc)), hfirst] at hhead
      exact Option.some.inj hhead
    have hmem : c ∈ chainOf b v'.fat e.cluster := by
      rw [hcluster]
      exact hpre.subset (mem_of_getElem? hc)
    have hat' : e.At b d i := { hat with loc := hloc.trans hat.loc }
    have hfits : f.pos + writeLen b f.pos buf.length ≤ cs'.length * b.clusterBytes := writeLen_le hw hc
    have hmod := Nat.mod_lt f.pos (clusterBytes_pos hw)
    have hdata : (splice (v'.clus c) (f.pos % b.clusterBytes) (buf.take (writeLen b f.pos buf.length))).length =
        b.clusterBytes := by
      have hlen := hsized' c ((t'.chained _ he.isHead).isCluster hmem)
      rw [length_splice (by rw [length_take]; unfold writeLen; omega), hlen]
    have hgrow := Nat.mul_le_mul_right b.clusterBytes hold.length_le
    have hsize := ha.size_le
    have hlt := @size_advanced_lt f first (writeLen b f.pos buf.length) ha.size_lt
    have hnew : (advanced first (writeLen b f.pos buf.length) f).entry.size ≤ cs'.length * b.clusterBytes := by
      dsimp only [advanced]
      split_ifs
      · omega
      · omega
    have hle := Nat.mul_le_mul_right b.clusterBytes hpre.length_le
    rw [← hcluster] at hle
    obtain ⟨t'', hk', hrec⟩ :=
      t'.store hw hsized' he hfile hat' hmem hdata hlt (Nat.le_trans hnew hle)
    rw [heq] at hrec hk' t'' ⊢
    refine ⟨t'', hk.trans hk', ⟨_, hrec, hfile, rfl, hloc⟩, ?_, ne_nil_of_mem (mem_of_getElem? hc), ?_, ?_⟩
    · rwa [hcluster]
    · exact heq ▸ hnew
    · exact heq ▸ hlt

end

end

end Ruos.Fat
