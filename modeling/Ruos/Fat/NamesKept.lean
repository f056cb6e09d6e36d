import Ruos.Fat.Formatted
import Ruos.Fat.Lookup

/-! What making a file or directory does to the names of its directory. -/
namespace Ruos.Fat

open Lib Vfs Block List
open Block.ErrorFree

inductive Make where
  | create
  | mkdir
  | openCreate (flags : OpenFlags)
  deriving DecidableEq, Repr

namespace Make

variable {S : Type} [BlockDevice S] [Unicode] (b : Bpb)

def creating (flags : OpenFlags) : OpenFlags := { flags with create := true }

def run (path : List Name) : Make → FatM S Unit
  | .create => Fat.create b path
  | .mkdir => Fat.mkdir b path
  | .openCreate flags => do
    let _ ← openFile b path (creating flags)
    pure ()

/-- The entry that a call makes, or that `open` finds. -/
def entry (path : List Name) : Make → FatM S DirEntry
  | .create => do
    let parent ← lookupParentAndName b path
    createFile b parent.1 parent.2
  | .mkdir => do
    let parent ← lookupParentAndName b path
    createEntry b true parent.1 parent.2
  | .openCreate flags => openEntry b path (creating flags)

def isDir : Make → Bool
  | .mkdir => true
  | _ => false

variable {b}

theorem entry_of_run {op : Make} {path : List Name} {s s' : S} (h : op.run b path s = .ok () s') :
    ∃ e, op.entry b path s = .ok e s' := by
  cases op with
  | create | mkdir =>
    obtain ⟨parent, t, hparent, hrest⟩ := bind_eq_ok h
    obtain ⟨e, t', hmake, hpure⟩ := bind_eq_ok hrest
    cases hpure
    exact ⟨e, (bind_of_ok hparent).trans hmake⟩
  | openCreate flags =>
    obtain ⟨f, t, hopen, hpure⟩ := bind_eq_ok h
    cases hpure
    obtain ⟨e, t', hentry, hrest⟩ := bind_eq_ok hopen
    obtain ⟨u, t'', hfail, hpure⟩ := bind_eq_ok hrest
    cases hpure
    unfold failIf at hfail
    split_ifs at hfail
    · cases hfail
    · cases hfail
      exact ⟨e, hentry⟩

end Make

section

variable {S : Type} [BlockDevice S] [Unicode] {b : Bpb} {v v' : Vol} {P n : Nat} {l l' : List Nat} {ps : List Name}
  {name : Name} {isDir : Bool} {loc : Nat × Nat}

/-- What a call that made or opened `name` in the directory `ps` must have done, from `s` to `s'`: the entry is found
under its name, opening the name once more changes nothing on the volume, and every other name of the directory
resolves as before. -/
structure NamesKept [ErrorFree S] (b : Bpb) (op : Make) (ps : List Name) (name : Name) (s s' : S) : Prop where
  finds : ∃ e t, op.entry b (ps ++ [name]) s = .ok e s' ∧ lookup b (ps ++ [name]) s' = .ok e t
  reopen : ∀ flags, ∃ r t w, openFile b (ps ++ [name]) (Make.creating flags) s' = outcome r t ∧
    Mounted b (mem s') w ∧ Mounted b (mem t) w
  others : ∀ q, toAsciiLowercase q ≠ toAsciiLowercase name →
    ∃ r t t', lookup b (ps ++ [q]) s = outcome r t ∧ lookup b (ps ++ [q]) s' = outcome r t'

section

variable [ErrorFree S] {s₀ : S} (hw : b.WellSized (blocks s₀)) (hpath : PathOk b v l b.rootClus ps)
  (hwalk : walkIn b v b.rootClus ps = .ok P)
include hw hpath hwalk

theorem runs_lookup (hc : Chained b v.fat P l') (q : Name) :
    Runs (Holds b s₀) (lookup b (ps ++ [q])) v (found (findName (dirEntries b v P) q)) v := by
  have hdirs := runs_walkDirs hw hpath
  rw [hwalk] at hdirs
  rw [lookup, lookupFrom_eq]
  exact hdirs.bind (runs_findEntry hw hc q)

theorem runs_lookupParentAndName : Runs (Holds b s₀) (lookupParentAndName b (ps ++ [name])) v (.ok (P, name)) v := by
  have hdirs := runs_walkDirs hw hpath
  rw [hwalk] at hdirs
  rw [lookupParentAndName, getLast?_concat, dropLast_concat]
  exact hdirs.bind (Runs.pure _ v)

end

section

variable [ErrorFree S] {s₀ : S}

omit [Unicode] in
theorem runs_onNotFound {α : Type} {x : FatM S α} {c : α} (y : FatM S α) (hx : Runs (Holds b s₀) x v (.ok c) v') :
    Runs (Holds b s₀) (onNotFound x y) v (.ok c) v' := by
  intro s hs
  obtain ⟨s', heq, hs'⟩ := hx s hs
  refine ⟨s', ?_, hs'⟩
  rw [onNotFound, heq]
  rfl

omit [Unicode] in
theorem meets_onNotFound {α : Type} {x y : FatM S α} {Q : Except VfsError α → Vol → Prop}
    (hx : Runs (Holds b s₀) x v (.error .notFound) v) (hy : Meets (Holds b s₀) y v Q) :
    Meets (Holds b s₀) (onNotFound x y) v Q := by
  intro s hs
  obtain ⟨s', heq, hs'⟩ := hx s hs
  obtain ⟨r, t, a, hy, ht, hQ⟩ := hy s' hs'
  refine ⟨r, t, a, ?_, ht, hQ⟩
  rw [onNotFound, heq]
  exact hy

variable (hw : b.WellSized (blocks s₀)) (hc : Chained b v.fat P l)
include hw hc

theorem meets_entry {lp : List Nat} (hpath : PathOk b v lp b.rootClus ps) (hwalk : walkIn b v b.rootClus ps = .ok P) (op : Make) :
    Meets (Holds b s₀) (op.entry b (ps ++ [name])) v (Creates b v P l name op.isDir) := by
  have hcreate : ∀ isDir : Bool, Meets (Holds b s₀)
      (lookupParentAndName b (ps ++ [name]) >>= fun parent => createEntry b isDir parent.1 parent.2) v
      (Creates b v P l name isDir) :=
    fun isDir => Meets.bind_runs (runs_lookupParentAndName hw hpath hwalk) (meets_createEntry hw hc isDir name)
  cases op with
  | create => exact hcreate false
  | mkdir => exact hcreate true
  | openCreate flags =>
    have hlookup := runs_lookup hw hpath hwalk hc name
    cases hfind : findName (dirEntries b v P) name with
    | some e =>
      rw [hfind] at hlookup
      exact Meets.of_runs (runs_onNotFound _ hlookup) (.inl ⟨e, hfind, .inl rfl, rfl⟩)
    | none =>
      rw [hfind] at hlookup
      exact meets_onNotFound hlookup (hcreate false)

end

namespace Made

variable {blocks : Nat} (h : Made b v P l name isDir n loc v' l')
include h

omit [Unicode] in
theorem same : SameElsewhere l v v' := by
  intro x hx hused
  obtain ⟨hfat, hclus⟩ := same_prepared h.free x hx hused
  obtain ⟨hfat', hclus'⟩ := h.added.same x hx (hfat ▸ hused)
  exact ⟨hfat'.trans hfat, hclus'.trans hclus⟩

variable (hw : b.WellSized blocks) (hc : Chained b v.fat P l)
include hw hc

omit [Unicode] in
theorem chained : Chained b v'.fat P l' := h.added.chained hw (hc.prepared h.free)

omit [Unicode] in
theorem inserted : Inserted (dirSlots b v l) loc (newRecord name isDir n) (dirSlots b v' l') := by
  have hprep : Chained b (prepared b v P isDir n).fat P l := hc.prepared h.free
  have hslots := h.added.slots hc.nodup (fun x hx => (hprep.mem x hx).2) (length_newRecord name isDir n) hw.spc_pos
  rwa [dirSlots_prepared hc h.free] at hslots

omit [Unicode] hw in
theorem notMem : n ∉ l' := by
  have hfree := hc.notMem_of_free h.free
  cases h.added with
  | reuse hl hold hfree' hused => exact hfree
  | grow hlast hm hfree' hused =>
    intro hmem
    rcases mem_append.mp hmem with hmem | hmem
    · exact hfree hmem
    · rw [fat_prepared, ← mem_singleton.mp hmem, fat_alloc_self] at hfree'
      cases hfree'

omit [Unicode] in
theorem chained_new : Chained b v'.fat n [n] := by
  have hprep : Chained b (prepared b v P isDir n).fat n [n] := by
    rw [fat_prepared]
    exact chained_alloc hw v h.isCluster
  exact h.added.same.chained hprep (singleton_disjoint.mpr (hc.notMem_of_free h.free))

theorem finds_iff (hsized : Sized b v') (hfresh : findName (dirEntries b v P) name = none) :
    findName (dirEntries b v' P) name = some (newEntry name isDir n loc) ↔
      ReadsBack (pendingAt (dirSlots b v l)) name := by
  have hc' := h.chained hw hc
  have hlt := lt_of_isCluster hw h.isCluster
  rw [dirEntries_eq hc] at hfresh
  rw [dirEntries_eq hc']
  exact (h.inserted hw hc).finds_iff hlt hfresh (locs_nodup hsized (fun _ hx => hc'.isCluster hx) hc'.nodup)

theorem others_iff (hback : ReadsBack (pendingAt (dirSlots b v l)) name) :
    (∀ q, toAsciiLowercase q ≠ toAsciiLowercase name →
        findName (dirEntries b v' P) q = findName (dirEntries b v P) q) ↔ Storable (dirSlots b v l) name := by
  have hlt := lt_of_isCluster hw h.isCluster
  rw [dirEntries_eq hc, dirEntries_eq (h.chained hw hc), (h.inserted hw hc).others_iff hlt hback]
  exact ⟨fun hhidden => ⟨hback, hhidden⟩, Storable.hidden⟩

end Made

section

variable [ErrorFree S] {s s' : S} {op : Make} {e : DirEntry}

section

variable {l₀ : List Nat} (hw : b.WellSized (blocks s)) (hwalk : walkIn b v b.rootClus ps = .ok P)
  (hc : Chained b v.fat P l)
include hw hwalk hc

theorem reopen_of_found (hpath : PathOk b v l₀ b.rootClus ps) (hs : Holds b s s' v)
    (hfind : findName (dirEntries b v P) name = some e) (flags : OpenFlags) :
    ∃ r t w, openFile b (ps ++ [name]) (Make.creating flags) s' = outcome r t ∧
      Mounted b (mem s') w ∧ Mounted b (mem t) w := by
  have hlookup := runs_lookup hw hpath hwalk hc name
  rw [hfind] at hlookup
  have hentry : Runs (Holds b s) (openEntry b (ps ++ [name]) (Make.creating flags)) v (.ok e) v :=
    runs_onNotFound _ hlookup
  have hopen : ∃ r, Runs (Holds b s) (openFile b (ps ++ [name]) (Make.creating flags)) v r v := by
    by_cases hdir : e.isDir
    · exact ⟨_, hentry.bind (Runs.failIf_true hdir _ v).bind_error⟩
    · exact ⟨_, hentry.bind ((Runs.failIf_false hdir _ v).bind (Runs.pure _ v))⟩
  obtain ⟨r, hopen⟩ := hopen
  obtain ⟨t, hrun, ht⟩ := hopen s' hs
  exact ⟨r, t, v, hrun, hs.2, ht.2⟩

theorem namesKept_of_found (hpath : PathOk b v l b.rootClus ps) (hwalk' : walkIn b v' b.rootClus ps = .ok P)
    (hc' : Chained b v'.fat P l') (hpath' : PathOk b v' l₀ b.rootClus ps) (hs : Holds b s s v) (hs' : Holds b s s' v')
    (hfind : findName (dirEntries b v' P) name = some e) (hothers : ∀ q, toAsciiLowercase q ≠ toAsciiLowercase name →
      findName (dirEntries b v' P) q = findName (dirEntries b v P) q)
    (hentry : op.entry b (ps ++ [name]) s = .ok e s') : NamesKept b op ps name s s' := by
  have hlookup' := runs_lookup hw hpath' hwalk' hc'
  refine ⟨?_, reopen_of_found hw hwalk' hc' hpath' hs' hfind, fun q hq => ?_⟩
  · have hname := hlookup' name
    rw [hfind] at hname
    obtain ⟨t, hrun, -⟩ := hname s' hs'
    exact ⟨e, t, hentry, hrun⟩
  · obtain ⟨t, hrun, -⟩ := runs_lookup hw hpath hwalk hc q s hs
    obtain ⟨t', hrun', -⟩ := hlookup' q s' hs'
    rw [hothers q hq] at hrun'
    exact ⟨_, t, t', hrun, hrun'⟩

theorem namesKept_iff_of_made (hpath : PathOk b v l b.rootClus ps) (hs : Holds b s s v) (hs' : Holds b s s' v')
    (hfresh : findName (dirEntries b v P) name = none) (hmade : Made b v P l name isDir n loc v' l')
    (hentry : op.entry b (ps ++ [name]) s = .ok (newEntry name isDir n loc) s') :
    NamesKept b op ps name s s' ↔ Storable (dirSlots b v l) name := by
  have hc' := hmade.chained hw hc
  have hlookup := runs_lookup hw hpath hwalk hc
  obtain ⟨hsame, hpath'⟩ := hmade.same.walkIn hpath
  have hlookup' := runs_lookup hw hpath' (hsame.trans hwalk) hc'
  have hfinds := hmade.finds_iff hw hc hs'.sized hfresh
  constructor
  · rintro ⟨⟨e, t, hentry', hrun⟩, -, hothers⟩
    rw [hentry] at hentry'
    cases hentry'
    have hback : findName (dirEntries b v' P) name = some (newEntry name isDir n loc) :=
      found_inj ((hlookup' name).of_ok hs' hrun).1
    refine (hmade.others_iff hw hc (hfinds.mp hback)).mp fun q hq => ?_
    obtain ⟨r, t, t', hrun, hrun'⟩ := hothers q hq
    obtain ⟨u, hold, -⟩ := hlookup q s hs
    obtain ⟨u', hnew, -⟩ := hlookup' q s' hs'
    exact found_inj ((outcome_inj (hnew.symm.trans hrun')).1.trans (outcome_inj (hold.symm.trans hrun)).1.symm)
  · intro hstore
    have hback := hstore.reads_back
    exact namesKept_of_found hw hwalk hc hpath (hsame.trans hwalk) hc' hpath' hs hs' (hfinds.mpr hback)
      ((hmade.others_iff hw hc hback).mpr hstore) hentry

end

/-- A call that returned kept the names of its directory exactly if the name was there already, or can be stored
in the directory. -/
theorem make_keeps_names_iff (hw : b.WellSized (blocks s)) (hm : Mounted b (mem s) v)
    (hpath : PathOk b v l b.rootClus ps) (hwalk : walkIn b v b.rootClus ps = .ok P) (hc : Chained b v.fat P l)
    (hrun : op.run b (ps ++ [name]) s = .ok () s') : NamesKept b op ps name s s' ↔
      (findName (dirEntries b v P) name).isSome ∨ Storable (dirSlots b v l) name := by
  have hs : Holds b s s v := ⟨frame_refl s, hm⟩
  obtain ⟨e, hentry⟩ := Make.entry_of_run hrun
  obtain ⟨v', hs', hcreates⟩ := (meets_entry hw hc hpath hwalk op).of_ok hs hentry
  rcases hcreates with ⟨e', hfind, hr, rfl⟩ | ⟨hfresh, hmakes⟩
  · rcases hr with hr | hr
    · cases hr
      rw [hfind]
      exact iff_of_true (namesKept_of_found hw hwalk hc hpath hwalk hc hpath hs hs' hfind (fun _ _ => rfl) hentry) (.inl rfl)
    · cases hr
  · cases hmakes with
    | made hmade =>
      rw [namesKept_iff_of_made hw hwalk hc hpath hs hs' hfresh hmade hentry, hfresh]
      simp

end

end

def verylongname : Name := ['v', 'e', 'r', 'y', 'l', 'o', 'n', 'g', 'n', 'a', 'm', 'e']

/-- A name that does not fit into a short name cannot be found again. -/
theorem create_verylongname_lost : ∃ g s s', geometry 66601 = .ok g ∧ format [1, 2, 3, 4] smallDisk = .ok () s ∧
      @Make.run _ _ Unicode.ascii g.bpb [verylongname] .create s = .ok () s' ∧
      ¬ @NamesKept _ _ Unicode.ascii _ g.bpb .create [] verylongname s s' := by
  let _ := Unicode.ascii
  obtain ⟨_, s', hcreate, hlost⟩ : ∃ u s', Make.run smallGeometry.bpb [verylongname] .create freshDisk = .ok u s' ∧
      (!(reply (lookup smallGeometry.bpb [verylongname]) s').1.isOk) = true := exists_ok (by decide +kernel)
  refine ⟨smallGeometry, freshDisk, s', rfl, format_smallDisk, hcreate, fun hkept => ?_⟩
  obtain ⟨e, t, -, hfind⟩ := hkept.finds
  have hreply := reply_eq (r := .ok e) hfind
  rw [show [] ++ [verylongname] = [verylongname] from rfl] at hreply
  rw [hreply] at hlost
  cases hlost

theorem make_keeps_names_iff_a : ∃ g s s', geometry 66601 = .ok g ∧ format [1, 2, 3, 4] smallDisk = .ok () s ∧
      @Make.run _ _ Unicode.ascii g.bpb [['a']] .create s = .ok () s' ∧
      @NamesKept _ _ Unicode.ascii _ g.bpb .create [] ['a'] s s' := by
  let _ := Unicode.ascii
  obtain ⟨_, s', hcreate, -⟩ : ∃ u s', Make.run smallGeometry.bpb [['a']] .create freshDisk = .ok u s' ∧ true :=
    exists_ok (by decide +kernel)
  have hc : Chained smallGeometry.bpb (volOf smallGeometry.bpb freshBytes).fat 2 [2] :=
    .single (by decide) (by decide) (by decide +kernel)
  have hpath : PathOk smallGeometry.bpb (volOf smallGeometry.bpb freshBytes) [2] 2 [] := trivial
  have hback : Storable (dirSlots smallGeometry.bpb (volOf smallGeometry.bpb freshBytes) [2]) ['a'] :=
    ⟨by unfold ReadsBack; decide +kernel, by decide +kernel⟩
  have hm : Mounted smallGeometry.bpb (mem freshDisk) (volOf smallGeometry.bpb freshBytes) := mounted_volOf parse_freshBytes
  have hkept := make_keeps_names_iff wellSized_small hm hpath rfl hc hcreate
  exact ⟨_, freshDisk, s', rfl, format_smallDisk, hcreate, hkept.mpr (.inr hback)⟩

end Ruos.Fat
