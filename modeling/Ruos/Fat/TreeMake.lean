import Ruos.Fat.NamesKept
import Ruos.Fat.Tree

/-! Making files and directories: the listing of a directory that something was made in, and of a new one; the tree of
directories stays in order. -/
namespace Ruos.Fat

open Lib Vfs Block List

section

variable {S S' : List Located} {loc : Nat × Nat} {rec : List UInt8}

theorem Tidy.attr_of_used (h : Tidy S) {r : Located} (hr : r ∈ S) (hused : isFree r.2 = false) : recAttr r.2 ≠ 0x0F := by
  obtain ⟨A, Z, rfl, hA, hZ⟩ := h
  rcases mem_append.mp hr with hr | hr
  · exact (hA r hr).2
  · rw [hZ r hr] at hused
    cases hused

theorem Tidy.insert [Unicode] (h : Tidy S) (hins : Inserted S loc rec S') (hused : isFree rec = false)
    (hattr : recAttr rec ≠ 0x0F) :
    Tidy S' ∧ S'.flatMap slotEntries = S.flatMap slotEntries ++ slotEntries (loc, rec) := by
  have htidy : ∀ {A Z : List Located}, (∀ r ∈ A, r ∈ S ∧ isFree r.2 = false) →
      (∀ r ∈ Z, r.2 = replicate 32 0) → Tidy (A ++ (loc, rec) :: Z) := by
    intro A Z hA hZ
    refine ⟨A ++ [(loc, rec)], Z, by simp, fun r hr => ?_, hZ⟩
    rcases mem_append.mp hr with hr | hr
    · exact ⟨(hA r hr).2, h.attr_of_used (hA r hr).1 (hA r hr).2⟩
    · rw [mem_singleton.mp hr]
      exact ⟨hused, hattr⟩
  rcases hins with ⟨A, old, B, hS, hfree, rfl, hA⟩ | ⟨Z, rfl, hA, hZ⟩
  · have hzero := h.zero_of_free hS hfree
    have hB : ∀ r ∈ B, r.2 = replicate 32 0 := fun r hr => hzero r (mem_cons_of_mem _ hr)
    refine ⟨htidy (fun r hr => ⟨hS ▸ mem_append_left _ hr, hA r hr⟩) hB, ?_⟩
    rw [hS, flatMap_append, flatMap_append, flatMap_cons, flatMap_zeros hB, flatMap_zeros hzero,
      append_nil, append_nil]
  · refine ⟨htidy (fun r hr => ⟨hr, hA r hr⟩) hZ, ?_⟩
    rw [flatMap_append, flatMap_cons, flatMap_zeros hZ, append_nil]

end

section

variable [Unicode] {b : Bpb} {n P : Nat}

def dotEntry (b : Bpb) (n : Nat) : DirEntry where
  name := ['.']
  isDir := true
  cluster := n
  size := 0
  recSec := b.clusterSector n
  recOff := 0

def dotdotEntry (b : Bpb) (n P : Nat) : DirEntry where
  name := ['.', '.']
  isDir := true
  cluster := if P = b.rootClus then 0 else P
  size := 0
  recSec := (recordLoc b n 1).1
  recOff := (recordLoc b n 1).2

omit [Unicode] in
theorem slots_dotRecords (hspc : 0 < b.secPerCluster) : ∃ Z, clusterSlots b n (dotRecords b n P) =
        ((b.clusterSector n, 0), dirRecord dotName 0x10 n 0) ::
          (recordLoc b n 1, dirRecord dotdotName 0x10 (if P = b.rootClus then 0 else P) 0) :: Z ∧
      ∀ r ∈ Z, r.2 = List.replicate 32 0 := by
  obtain ⟨Z, hfirst, hzero⟩ :=
    @clusterSlots_zero_splice b n (dirRecord dotName 0x10 n 0) (length_dirRecord (by decide)) hspc
  have hlen : 1 < (splice (zeroCluster b) 0 (dirRecord dotName 0x10 n 0)).length / 32 := by
    rw [length_splice (by rw [length_dirRecord (by decide), length_zeroCluster, Bpb.clusterBytes]; omega),
      length_zeroCluster, Bpb.clusterBytes]
    omega
  have hsecond := @clusterSlots_splice_one b n _ (dirRecord dotdotName 0x10 (if P = b.rootClus then 0 else P) 0) 1
    (length_dirRecord (by decide)) hlen
  rw [hfirst] at hsecond
  exact ⟨Z.drop 1, hsecond, fun r hr => hzero r (mem_of_mem_drop hr)⟩

theorem slotEntries_of_readSlot {rec : List UInt8} {name : Name} (h : readSlot none rec = .entry name) (loc : Nat × Nat) :
    slotEntries (loc, rec) = [entryOf name (loc, rec)] := by
  simp only [slotEntries, h]

theorem listing_dotRecords (hspc : 0 < b.secPerCluster) (hn : n < 2 ^ 32) (hP : P < 2 ^ 32) :
    Tidy (clusterSlots b n (dotRecords b n P)) ∧
      (clusterSlots b n (dotRecords b n P)).flatMap slotEntries = [dotEntry b n, dotdotEntry b n P] := by
  obtain ⟨Z, hslots, hzero⟩ := slots_dotRecords hspc
  have hparent : (if P = b.rootClus then 0 else P) < 2 ^ 32 := by
    split_ifs
    · decide
    · exact hP
  have hdot : readSlot none (dirRecord dotName (attrOf true) n 0) = .entry ['.'] := by
    rw [readSlot_dirRecord none (by decide)]
    rfl
  have hdotdot : readSlot none (dirRecord dotdotName (attrOf true) (if P = b.rootClus then 0 else P) 0) =
      .entry ['.', '.'] := by
    rw [readSlot_dirRecord none (by decide)]
    rfl
  rw [hslots]
  refine ⟨⟨[_, _], Z, rfl, fun r hr => ?_, hzero⟩, ?_⟩
  · simp only [mem_cons, not_mem_nil, or_false] at hr
    rcases hr with rfl | rfl
    · exact used_of_entry hdot
    · exact used_of_entry hdotdot
  · have hfirst : slotEntries ((b.clusterSector n, 0), dirRecord dotName (attrOf true) n 0) = [dotEntry b n] := by
      rw [slotEntries_of_readSlot hdot _, entryOf_dirRecord (by decide) true hn]
      rfl
    have hsecond : slotEntries (recordLoc b n 1, dirRecord dotdotName (attrOf true) (if P = b.rootClus then 0 else P) 0) =
        [dotdotEntry b n P] := by
      rw [slotEntries_of_readSlot hdotdot _, entryOf_dirRecord (by decide) true hparent]
      rfl
    rw [flatMap_cons, flatMap_cons, flatMap_zeros hzero]
    exact congrArg₂ (fun x y => x ++ (y ++ [])) hfirst hsecond

end

namespace Made

variable {b : Bpb} {v v' : Vol} {P n x : Nat} {l l' : List Nat} {name : Name} {isDir : Bool} {loc : Nat × Nat}
  (h : Made b v P l name isDir n loc v' l')
include h

theorem grown : ∃ ns, l' = l ++ ns ∧ ns.length ≤ 1 ∧ ∀ m ∈ ns, v.fat m = 0 := by
  cases h.added with
  | reuse => exact ⟨[], (append_nil l).symm, Nat.zero_le 1, by simp⟩
  | @grow last m hlast hm hfree hused =>
    refine ⟨[m], rfl, Nat.le_refl 1, fun x hx => ?_⟩
    obtain rfl := mem_singleton.mp hx
    by_cases heq : x = n
    · rw [heq]
      exact h.free
    · rwa [fat_prepared, fat_alloc_of_ne heq] at hfree

theorem mirrored : v'.mirrored = v.mirrored := by
  have hprep : (prepared b v P isDir n).mirrored = v.mirrored := by
    unfold prepared
    split_ifs <;> rfl
  cases h.added with
  | reuse | grow => exact hprep

theorem used (hx : v'.fat x ≠ 0) : v.fat x ≠ 0 ∨ x = n ∨ x ∈ l' := by
  by_cases heq : x = n
  · exact .inr (.inl heq)
  by_cases hmem : x ∈ l'
  · exact .inr (.inr hmem)
  left
  have hprep : (prepared b v P isDir n).fat x = v.fat x := by rw [fat_prepared, fat_alloc_of_ne heq]
  rw [← hprep]
  cases h.added with
  | reuse => exact hx
  | @grow last m hlast hm hfree hused =>
    obtain ⟨hl, hm⟩ := not_or.mp (mem_append.not.mp hmem)
    have hlast' : x ≠ last := fun heq => hl (heq ▸ mem_of_getLast? hlast)
    have hsame : (((prepared b v P isDir n).alloc b m).setFat last m).fat x = (prepared b v P isDir n).fat x :=
      (Function.update_of_ne hlast' _ _).trans (fat_alloc_of_ne fun heq => hm (mem_singleton.mpr heq))
    rw [← hsame]
    exact hx

theorem clus_new (hc : Chained b v.fat P l) (hdir : isDir = true) : v'.clus n = dotRecords b n P := by
  have hused : (prepared b v P isDir n).fat n ≠ 0 := by
    rw [fat_prepared, fat_alloc_self]
    decide
  rw [(h.added.same n (hc.notMem_of_free h.free) hused).2, prepared, if_pos hdir, Vol.clus_setClus_self]
end Made

namespace Tree

variable [Unicode] {b : Bpb} {v v' : Vol} {P Q n blocks : Nat} {l' : List Nat} {name : Name} {isDir : Bool}
  {loc : Nat × Nat} {e : DirEntry} (t : Tree b v) (hw : b.WellSized blocks) (hP : IsDirectory b v P)
  (hmade : Made b v P (chainOf b v.fat P) name isDir n loc v' l')
include t hw hP hmade

variable {h : Nat}

omit hw hP in
theorem notMem_new (hh : IsHead b v h) : n ∉ chainOf b v.fat h := (t.chained h hh).notMem_of_free hmade.free

omit hw in
theorem same_made {h x : Nat} (hh : IsHead b v h) (hne : h ≠ P) (hx : x ∈ chainOf b v.fat h) :
    v'.fat x = v.fat x ∧ v'.clus x = v.clus x :=
  hmade.same x (t.apart h P hh hP.isHead hne hx) ((t.chained h hh).mem x hx).2

omit hw in
theorem chainOf_made (hh : IsHead b v h) (hne : h ≠ P) :
    Chained b v'.fat h (chainOf b v.fat h) ∧ chainOf b v'.fat h = chainOf b v.fat h :=
  t.chainOf_of_same hh fun _ hx => (t.same_made hP hmade hh hne hx).1

theorem chained_parent : Chained b v'.fat P l' := hmade.chained hw (t.chained P hP.isHead)

theorem dirEntries_parent (hback : ReadsBack none name) :
    Tidy (dirSlots b v' l') ∧ dirEntries b v' P = dirEntries b v P ++ [newEntry name isDir n loc] := by
  have hread := (readSlot_newRecord isDir n).mpr hback
  have hused := used_of_entry hread
  obtain ⟨htidy, hlist⟩ := (t.tidy P hP).insert (hmade.inserted hw (t.chained P hP.isHead)) hused.1 hused.2
  refine ⟨htidy, ?_⟩
  have hlt := lt_of_isCluster hw hmade.isCluster
  rw [Fat.dirEntries_eq (t.chained_parent hw hP hmade), htidy.scan_eq, hlist, ← t.dirEntries_eq hP,
    slotEntries_of_readSlot hread loc, entryOf_newRecord hlt]

omit hw in
theorem dirEntries_other (hQ : IsDirectory b v Q) (hne : Q ≠ P) : dirEntries b v' Q = dirEntries b v Q := by
  rw [Fat.dirEntries_eq (t.chainOf_made hP hmade hQ.isHead hne).1, Fat.dirEntries_eq (t.chained Q hQ.isHead),
    dirSlots_congr fun x hx => (t.same_made hP hmade hQ.isHead hne hx).2]

theorem dirEntries_new (hdir : isDir = true) :
    Tidy (dirSlots b v' [n]) ∧ dirEntries b v' n = [dotEntry b n, dotdotEntry b n P] := by
  have hslots : dirSlots b v' [n] = clusterSlots b n (dotRecords b n P) := by
    rw [dirSlots, flatMap_singleton, hmade.clus_new (t.chained P hP.isHead) hdir]
  obtain ⟨htidy, hlist⟩ := listing_dotRecords hw.spc_pos (lt_of_isCluster hw hmade.isCluster)
    (lt_of_isCluster hw (t.live P hP.isHead))
  rw [← hslots] at htidy hlist
  exact ⟨htidy, by rw [Fat.dirEntries_eq (hmade.chained_new hw (t.chained P hP.isHead)), htidy.scan_eq, hlist]⟩

section

variable (hback : ReadsBack none name) (hdot : isDot (toAsciiLowercase name) = false)
include hback

theorem mem_made (hQ : IsDirectory b v Q) (he : e ∈ dirEntries b v Q) : e ∈ dirEntries b v' Q := by
  by_cases heq : Q = P
  · subst heq
    rw [(t.dirEntries_parent hw hQ hmade hback).2]
    exact mem_append_left _ he
  · rwa [t.dirEntries_other hP hmade hQ heq]

theorem of_mem_made (hQ : IsDirectory b v Q) (he : e ∈ dirEntries b v' Q) :
    e ∈ dirEntries b v Q ∨ e = newEntry name isDir n loc := by
  by_cases heq : Q = P
  · subst heq
    rw [(t.dirEntries_parent hw hQ hmade hback).2] at he
    rcases mem_append.mp he with he | he
    · exact .inl he
    · exact .inr (mem_singleton.mp he)
  · rw [t.dirEntries_other hP hmade hQ heq] at he
    exact .inl he

theorem isDirectory_mono (hQ : IsDirectory b v Q) : IsDirectory b v' Q := by
  induction hQ with
  | root => exact .root
  | sub hQ he hdot hdir ih => exact .sub ih (t.mem_made hw hP hmade hback hQ he) hdot hdir

theorem of_mem_after (hQ : IsDirectory b v Q ∨ (isDir = true ∧ Q = n)) (he : e ∈ dirEntries b v' Q)
    (hdot' : isDot e.name = false) : (IsDirectory b v Q ∧ e ∈ dirEntries b v Q) ∨ e = newEntry name isDir n loc := by
  rcases hQ with hQ | ⟨hnew, rfl⟩
  · exact (t.of_mem_made hw hP hmade hback hQ he).imp_left fun he => ⟨hQ, he⟩
  · rw [(t.dirEntries_new hw hP hmade hnew).2] at he
    simp only [mem_cons, not_mem_nil, or_false] at he
    rcases he with rfl | rfl <;> cases hdot'

theorem isDirectory_made (hQ : IsDirectory b v' Q) : IsDirectory b v Q ∨ (isDir = true ∧ Q = n) := by
  induction hQ with
  | root => exact .inl .root
  | @sub Q e _ he hdot' hdir ih =>
    rcases t.of_mem_after hw hP hmade hback ih he hdot' with ⟨hQ, he⟩ | rfl
    · exact .inl (.sub hQ he hdot' hdir)
    · exact .inr ⟨hdir, rfl⟩

include hdot

theorem mem_new : IsRecord b v' (newEntry name isDir n loc) := by
  refine ⟨P, t.isDirectory_mono hw hP hmade hback hP, ?_, hdot⟩
  rw [(t.dirEntries_parent hw hP hmade hback).2]
  exact mem_append_right _ (mem_singleton_self _)

theorem isRecord_made : IsRecord b v' e ↔ IsRecord b v e ∨ e = newEntry name isDir n loc := by
  constructor
  · rintro ⟨Q, hQ, he, hdot'⟩
    rcases t.of_mem_after hw hP hmade hback (t.isDirectory_made hw hP hmade hback hQ) he hdot' with ⟨hQ, he⟩ | rfl
    · exact .inl ⟨Q, hQ, he, hdot'⟩
    · exact .inr rfl
  · rintro (⟨Q, hQ, he, hdot'⟩ | rfl)
    · exact ⟨Q, t.isDirectory_mono hw hP hmade hback hQ, t.mem_made hw hP hmade hback hQ he, hdot'⟩
    · exact t.mem_new hw hP hmade hback hdot

theorem isHead_made : IsHead b v' h ↔ IsHead b v h ∨ h = n := by
  simp only [IsHead, t.isRecord_made hw hP hmade hback hdot]
  constructor
  · rintro (rfl | ⟨e, he | rfl, rfl⟩)
    · exact .inl (.inl rfl)
    · exact .inl (.inr ⟨e, he, rfl⟩)
    · exact .inr rfl
  · rintro ((rfl | ⟨e, he, rfl⟩) | rfl)
    · exact .inl rfl
    · exact .inr ⟨e, .inl he, rfl⟩
    · exact .inr ⟨newEntry name isDir h loc, .inr rfl, rfl⟩

omit hP hback hdot in
theorem new_ne (hh : IsHead b v h) : h ≠ n := by
  rintro rfl
  exact t.notMem_new hmade hh (t.mem_chainOf hw hh)

omit hback hdot in
theorem chainOf_cases (hh : IsHead b v h ∨ h = n) :
    (h = n ∧ chainOf b v'.fat h = [n]) ∨ (h = P ∧ chainOf b v'.fat h = l') ∨
      (h ≠ P ∧ IsHead b v h ∧ chainOf b v'.fat h = chainOf b v.fat h) := by
  rcases hh with hh | rfl
  · by_cases heq : h = P
    · exact .inr (.inl ⟨heq, heq ▸ (t.chained_parent hw hP hmade).chainOf_eq⟩)
    · exact .inr (.inr ⟨heq, hh, (t.chainOf_made hP hmade hh heq).2⟩)
  · exact .inl ⟨rfl, (hmade.chained_new hw (t.chained P hP.isHead)).chainOf_eq⟩

omit hw hback hdot in
theorem apart_parent (hh : IsHead b v h) (hne : h ≠ P) : l'.Disjoint (chainOf b v.fat h) := by
  obtain ⟨ns, rfl, -, hns⟩ := hmade.grown
  intro x hx hx'
  rcases mem_append.mp hx with hx | hx
  · exact t.apart h P hh hP.isHead hne hx' hx
  · exact ((t.chained h hh).mem x hx').2 (hns x hx)

omit hback hdot in
theorem apart_made {h' : Nat} (hh : IsHead b v h ∨ h = n) (hh' : IsHead b v h' ∨ h' = n) (hne : h ≠ h') :
    (chainOf b v'.fat h).Disjoint (chainOf b v'.fat h') := by
  have hnotMem := hmade.notMem (t.chained P hP.isHead)
  rcases t.chainOf_cases hw hP hmade hh with ⟨rfl, heq⟩ | ⟨rfl, heq⟩ | ⟨hneP, hhead, heq⟩ <;>
    rcases t.chainOf_cases hw hP hmade hh' with ⟨rfl, heq'⟩ | ⟨rfl, heq'⟩ | ⟨hneP', hhead', heq'⟩ <;>
    first | exact absurd rfl hne | rw [heq, heq']
  · exact singleton_disjoint.mpr hnotMem
  · exact singleton_disjoint.mpr (t.notMem_new hmade hhead')
  · exact disjoint_singleton.mpr hnotMem
  · exact t.apart_parent hP hmade hhead' hneP'
  · exact disjoint_singleton.mpr (t.notMem_new hmade hhead)
  · exact (t.apart_parent hP hmade hhead hneP).symm
  · exact t.apart h h' hhead hhead' hne

theorem dots_made (hQ : IsDirectory b v' Q) (he : e ∈ dirEntries b v' Q) (hname : isDot e.name = true) :
    e.isDir = true ∧ (e.cluster = 0 ∨ IsDirectory b v' e.cluster) := by
  rcases t.isDirectory_made hw hP hmade hback hQ with hQ' | ⟨hdir, rfl⟩
  · rcases t.of_mem_made hw hP hmade hback hQ' he with he | rfl
    · obtain ⟨hd, hzero | hsub⟩ := t.dots Q e hQ' he hname
      · exact ⟨hd, .inl hzero⟩
      · exact ⟨hd, .inr (t.isDirectory_mono hw hP hmade hback hsub)⟩
    · rw [newEntry, hdot] at hname
      cases hname
  · rw [(t.dirEntries_new hw hP hmade hdir).2] at he
    simp only [mem_cons, not_mem_nil, or_false] at he
    rcases he with rfl | rfl
    · exact ⟨rfl, .inr hQ⟩
    · refine ⟨rfl, ?_⟩
      change (if P = b.rootClus then 0 else P) = 0 ∨ IsDirectory b v' (if P = b.rootClus then 0 else P)
      split_ifs
      · exact .inl rfl
      · exact .inr (t.isDirectory_mono hw hP hmade hback hP)

theorem make : Tree b v' := by
  have hhead : ∀ {h}, IsHead b v' h → IsHead b v h ∨ h = n := fun hh => (t.isHead_made hw hP hmade hback hdot).mp hh
  have hrec : ∀ {e}, IsRecord b v' e → IsRecord b v e ∨ e = newEntry name isDir n loc := fun he =>
    (t.isRecord_made hw hP hmade hback hdot).mp he
  have hcP := t.chained P hP.isHead
  obtain ⟨ns, hns, -⟩ := hmade.grown
  constructor
  · intro h hh
    rcases hhead hh with hh | rfl
    · exact t.live h hh
    · exact hmade.isCluster
  · intro h hh
    rcases t.chainOf_cases hw hP hmade (hhead hh) with ⟨rfl, heq⟩ | ⟨rfl, heq⟩ | ⟨hne, hh, heq⟩
    · rw [heq]
      exact hmade.chained_new hw hcP
    · rw [heq]
      exact t.chained_parent hw hP hmade
    · rw [heq]
      exact (t.chainOf_made hP hmade hh hne).1
  · exact fun h h' hh hh' hne => t.apart_made hw hP hmade (hhead hh) (hhead hh') hne
  · intro e e' he he' heq
    rcases hrec he with he | rfl
    · rcases hrec he' with he' | rfl
      · exact t.injective e e' he he' heq
      · exact absurd heq (t.new_ne hw hmade he.isHead)
    · rcases hrec he' with he' | rfl
      · exact absurd heq.symm (t.new_ne hw hmade he'.isHead)
      · rfl
  · intro e he
    rcases hrec he with he | rfl
    · exact t.not_root e he
    · exact (t.new_ne hw hmade (.inl rfl)).symm
  · intro e he
    rcases hrec he with he | rfl
    · have hle := t.size_le e he
      rcases t.chainOf_cases hw hP hmade (.inl he.isHead) with ⟨heq, -⟩ | ⟨heq, hchain⟩ | ⟨-, -, hchain⟩
      · exact absurd heq (t.new_ne hw hmade he.isHead)
      · rw [heq] at hle
        rw [hchain, hns, length_append, Nat.add_mul]
        exact Nat.le_add_right_of_le hle
      · rwa [hchain]
    · exact Nat.zero_le _
  · intro x htwo hlt hused
    rcases hmade.used hused with hold | rfl | hmem
    · obtain ⟨h, hh, hmem⟩ := t.cover x htwo hlt hold
      refine ⟨h, (t.isHead_made hw hP hmade hback hdot).mpr (.inl hh), ?_⟩
      rcases t.chainOf_cases hw hP hmade (.inl hh) with ⟨heq, -⟩ | ⟨heq, hchain⟩ | ⟨-, -, hchain⟩
      · exact absurd heq (t.new_ne hw hmade hh)
      · rw [heq] at hmem
        rw [hchain, hns]
        exact mem_append_left _ hmem
      · rwa [hchain]
    · refine ⟨x, (t.isHead_made hw hP hmade hback hdot).mpr (.inr rfl), ?_⟩
      rw [(hmade.chained_new hw hcP).chainOf_eq]
      exact mem_singleton_self x
    · refine ⟨P, (t.isHead_made hw hP hmade hback hdot).mpr (.inl hP.isHead), ?_⟩
      rwa [(t.chained_parent hw hP hmade).chainOf_eq]
  · intro Q hQ
    rcases t.isDirectory_made hw hP hmade hback hQ with hQ | ⟨hdir, rfl⟩
    · by_cases heq : Q = P
      · rw [heq, (t.chained_parent hw hP hmade).chainOf_eq]
        exact (t.dirEntries_parent hw hP hmade hback).1
      · exact t.tidy_of_same hQ fun x hx => t.same_made hP hmade hQ.isHead heq hx
    · rw [(hmade.chained_new hw hcP).chainOf_eq]
      exact (t.dirEntries_new hw hP hmade hdir).1
  · exact fun Q e => t.dots_made hw hP hmade hback hdot
  · rw [hmade.mirrored]
    exact t.mirrored

end

end Tree

section

variable [Unicode] {b : Bpb} {v : Vol}

theorem Fresh.isDirectory (h : Fresh b v) (htwo : b.IsCluster 2) (hroot : b.rootClus = 2) (hspc : 0 < b.secPerCluster)
    {Q : Nat} (hQ : IsDirectory b v Q) : Q = 2 ∧ dirEntries b v Q = [] := by
  have hempty := h.dirEntries_root htwo hspc
  induction hQ with
  | root => exact ⟨hroot, hroot ▸ hempty⟩
  | sub _ he _ _ ih =>
    rw [ih.2] at he
    cases he

theorem Fresh.tree (h : Fresh b v) (htwo : b.IsCluster 2) (hroot : b.rootClus = 2) (hspc : 0 < b.secPerCluster) :
    Tree b v := by
  have hnone : ∀ e, ¬ IsRecord b v e := by
    rintro e ⟨Q, hQ, he, -⟩
    rw [(h.isDirectory htwo hroot hspc hQ).2] at he
    cases he
  have hhead : ∀ {x}, IsHead b v x → x = 2 := by
    rintro x (rfl | ⟨e, he, -⟩)
    · exact hroot
    · exact absurd he (hnone e)
  have hc := h.chained htwo
  constructor
  · exact fun x hx => hhead hx ▸ htwo
  · intro x hx
    rw [hhead hx, hc.chainOf_eq]
    exact hc
  · exact fun x y hx hy hne => absurd ((hhead hx).trans (hhead hy).symm) hne
  · exact fun e _ he => absurd he (hnone e)
  · exact fun e he => absurd he (hnone e)
  · exact fun e he => absurd he (hnone e)
  · intro n htwo' hlt hused
    have hn : n = 2 := by
      by_contra hne
      exact hused (h.fat_free n (by omega) hlt)
    refine ⟨2, .inl hroot.symm, ?_⟩
    rw [hc.chainOf_eq, hn]
    exact mem_singleton_self 2
  · intro Q hQ
    obtain ⟨loc, Z, hslots, -, hzero⟩ := h.slots hspc
    rw [(h.isDirectory htwo hroot hspc hQ).1, hc.chainOf_eq, hslots]
    refine ⟨[(loc, labelRecord)], Z, rfl, fun r hr => ?_, hzero⟩
    rw [mem_singleton.mp hr]
    change isFree labelRecord = false ∧ recAttr labelRecord ≠ 0x0F
    decide
  · intro Q e hQ he
    rw [(h.isDirectory htwo hroot hspc hQ).2] at he
    cases he
  · exact h.mirrored

end

end Ruos.Fat
