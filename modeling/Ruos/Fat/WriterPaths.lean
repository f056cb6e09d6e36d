import Ruos.Fat.WriterData

/-! `FatWriter::write_file` and the directories on its path: what they find, what they make, and which clusters they
take from the free ones. -/
namespace Ruos.Fat

open Lib Vfs Block ErrorFree FatWriter Meets Runs List

section

variable {b : Bpb} {v v₁ v₂ : Vol} {P n : Nat} {l l' : List Nat}

/-- No cluster is given back. -/
def Retains (v v' : Vol) : Prop := ∀ n, v.fat n ≠ 0 → v'.fat n ≠ 0

def Took (b : Bpb) (v v' : Vol) : Prop := ∃ n, b.IsCluster n ∧ v.fat n = 0 ∧ v'.fat n ≠ 0

theorem Retains.refl (v : Vol) : Retains v v := fun _ hn => hn

theorem Retains.trans (h₁ : Retains v v₁) (h₂ : Retains v₁ v₂) : Retains v v₂ := fun n hn => h₂ n (h₁ n hn)

theorem Took.retains (h : Took b v v₁) (hr : Retains v₁ v₂) : Took b v v₂ := by
  obtain ⟨n, hn, hfree, hused⟩ := h
  exact ⟨n, hn, hfree, hr n hused⟩

theorem retains_of_same (h : SameElsewhere [] v v₁) : Retains v v₁ := by
  intro n hn
  rw [(h n not_mem_nil hn).1]
  exact hn

theorem retains_of_chained (h : SameElsewhere l v v₁) (hc : Chained b v₁.fat P l') (hsub : l ⊆ l') : Retains v v₁ := by
  intro n hn
  by_cases hin : n ∈ l
  · exact (hc.mem n (hsub hin)).2
  · rw [(h n hin hn).1]
    exact hn

theorem Filled.subset {run : List (List UInt8)} (h : Filled b v l run v₁ l') : l ⊆ l' := by
  cases h with
  | reuse => exact List.Subset.refl l
  | grow => exact subset_append_left l _

theorem took_prepared (hn : b.IsCluster n) (hfree : v.fat n = 0) (P : Nat) (isDir : Bool) :
    Took b v (prepared b v P isDir n) := by
  refine ⟨n, hn, hfree, ?_⟩
  rw [fat_prepared, fat_alloc_self]
  decide

theorem same_newData {cs : List Nat} (hfree : ∀ x ∈ cs, v.fat x = 0) (data : List UInt8) :
    SameElsewhere [] v (fillAll b (linkAll v cs) cs data) := by
  intro x _ hused
  have hx : x ∉ cs := fun hin => hused (hfree x hin)
  rw [fat_fillAll, fat_linkAll_of_notMem hx, clus_fillAll_of_notMem hx, clus_linkAll]
  exact ⟨rfl, rfl⟩

end

/-- The directory that `find_subdir` finds at the end of a path, unless one is missing. -/
noncomputable def walkSubdirs (b : Bpb) (v : Vol) : (cur : Nat) → (comps : List Name) → Option Nat
  | cur, [] => some cur
  | cur, comp :: comps =>
    match searched (subdirAt (toAsciiLowercase comp)) none (dirSlots b v (chainOf b v.fat cur)) with
    | .ok (some c) => walkSubdirs b v c comps
    | _ => none

theorem searched_subdir_cases (want : Name) (rs : List Located) :
    (∃ r ∈ rs, isFree r.2 = false ∧ recAttr r.2 &&& 0x10 ≠ 0 ∧
        searched (subdirAt want) none rs = .ok (some (recCluster r.2))) ∨
      searched (subdirAt want) none rs = .ok none ∨ searched (subdirAt want) none rs = .error .notDirectory := by
  unfold searched
  cases hfind : (rs.map (·.2)).findSome? (subdirAt want) with
  | none => exact .inr (.inl rfl)
  | some y =>
    obtain ⟨rec, hrec, hlook⟩ := exists_of_findSome?_eq_some hfind
    obtain ⟨r, hr, rfl⟩ := mem_map.mp hrec
    unfold subdirAt at hlook
    split_ifs at hlook with hzero hdel hlong hlabel hname hdir
    · exact .inr (.inl (Option.some.inj hlook).symm)
    · exact .inr (.inr (Option.some.inj hlook).symm)
    · refine .inl ⟨r, hr, ?_, hdir, (Option.some.inj hlook).symm⟩
      rw [isFree, decide_eq_false hzero, decide_eq_false hdel]
      rfl

section

variable {S : Type} [BlockDevice S] [ErrorFree S] {w₀ : FatWriter S} {b : Bpb} {v : Vol} {P h : Nat} {dirs : List Nat}
  {name : Name}

def Place (dirs : List Nat) (P : Nat) : Prop := P = 0 ∨ P ∈ dirs

variable {written : List (Nat × List UInt8)}

theorem Authored.place_chained (ha : Authored b v dirs written) (hP : Place dirs P) :
    Chained b v.fat P (chainOf b v.fat P) := by
  rcases hP with rfl | hP
  · rw [(chained_zero b v.fat).chainOf_eq]
    exact chained_zero b v.fat
  · exact ha.chained P hP

theorem Authored.forget (ha : Authored b v dirs written) : Authored b v dirs [] :=
  { ha with kept := fun _ hx => absurd hx not_mem_nil }

theorem Made.took {v' : Vol} {n : Nat} {loc : Nat × Nat} {l l' : List Nat} {isDir : Bool} {blocks : Nat}
    (hm : Made b v P l name isDir n loc v' l') (hw : b.WellSized blocks) (hc : Chained b v.fat P l) :
    Took b v v' ∧ Retains v v' := by
  obtain ⟨ns, hl', -⟩ := hm.grown
  have hsub : l ⊆ l' := hl' ▸ subset_append_left l ns
  refine ⟨⟨n, hm.isCluster, hm.free, ?_⟩, retains_of_chained hm.same (hm.chained hw hc) hsub⟩
  exact ((hm.chained_new hw hc).mem n mem_cons_self).2

theorem Added.not_nil {v' : Vol} {rec : List UInt8} {loc : Nat × Nat} {l' : List Nat} : ¬ Added b v [] rec loc v' l' := by
  intro hadded
  obtain ⟨c, hc⟩ : ∃ c, c ∈ ([] : List Nat) := by
    cases hadded with
    | reuse hl => exact ⟨_, hl ▸ mem_append_right _ mem_cons_self⟩
    | grow hlast => exact ⟨_, mem_of_getLast? hlast⟩
  exact absurd hc not_mem_nil

/-- What entering the directories of a path does, where `walk` is the directory it finds without making any. -/
inductive Entered (b : Bpb) (v : Vol) (h : Nat) (dirs : List Nat) (walk : Option Nat) :
    Except VfsError Nat → Vol × Nat → Prop
  | found {Q : Nat} (hwalk : walk = some Q) (hQ : Place dirs Q) : Entered b v h dirs walk (.ok Q) (v, h)
  | full (hwalk : walk = none) (hfull : Exhausted b v h) : Entered b v h dirs walk (.error .noSpace) (v, h)
  | made {Q : Nat} {p : Vol × Nat} {dirs' : List Nat} (hwalk : walk = none) (hsome : ¬ Exhausted b v h)
      (htook : Took b v p.1) (hkeep : Retains v p.1) (ha : Authored b p.1 dirs' []) (hQ : Place dirs' Q) :
      Entered b v h dirs walk (.ok Q) p
  | lost {e : VfsError} {p : Vol × Nat} (hwalk : walk = none) (hsome : ¬ Exhausted b v h) (htook : Took b v p.1)
      (hkeep : Retains v p.1) : Entered b v h dirs walk (.error e) p
  | refused {e : VfsError} {p : Vol × Nat} (hne : e ≠ .noSpace) : Entered b v h dirs walk (.error e) p

theorem Entered.after {v₁ : Vol} {h₁ : Nat} {dirs' : List Nat} {walk : Option Nat} {r : Except VfsError Nat} {p : Vol × Nat}
    (he : Entered b v₁ h₁ dirs' walk r p) (ha : Authored b v₁ dirs' []) (hsome : ¬ Exhausted b v h) (htook : Took b v v₁)
    (hkeep : Retains v v₁) : Entered b v h dirs none r p := by
  cases he with
  | found _ hQ => exact .made rfl hsome htook hkeep ha hQ
  | full => exact .lost rfl hsome htook hkeep
  | made _ _ _ hkeep' ha' hQ => exact .made rfl hsome (htook.retains hkeep') (hkeep.trans hkeep') ha' hQ
  | lost _ _ _ hkeep' => exact .lost rfl hsome (htook.retains hkeep') (hkeep.trans hkeep')
  | refused hne => exact .refused hne

variable (hw : b.WellSized (blocks w₀))
include hw

section

variable (ha : Authored b v dirs []) (hP : Place dirs P)
include ha hP

theorem meets_mkdir (hplain : isFree (encodeShortName name) = false) (h : Nat) :
    Meets (Hinted b w₀) (FatWriter.mkdir b P name) (v, h) fun r p =>
      (r = .error .noSpace ∧ p = (v, h) ∧ Exhausted b v h) ∨ (¬ Exhausted b v h ∧ Took b v p.1 ∧ Retains v p.1 ∧
        ((∃ e, r = .error e) ∨ ∃ c dirs', r = .ok c ∧ Authored b p.1 dirs' [] ∧ c ∈ dirs')) := by
  refine sized_hinted fun hsized => ?_
  have hc := ha.place_chained hP
  have hmake : Meets (Hinted b w₀) (makeEntry b (FatWriter.allocCluster b) true P name) (v, h) fun r p =>
      (r = .error .noSpace ∧ p = (v, h) ∧ Exhausted b v h) ∨
      (¬ Exhausted b v h ∧ Took b v p.1 ∧ Retains v p.1 ∧
        ((∃ e, r = .error e) ∨ ∃ e dirs', r = .ok e ∧ Authored b p.1 dirs' [] ∧ e.cluster ∈ dirs')) := by
    refine (meets_allocCluster_hinted hw v h).bind ?_ ?_
    · rintro n p (⟨n', hn, hle, hfree, hok, rfl⟩ | ⟨habs, -⟩)
      · cases hok
        have hsome : ¬ Exhausted b v h := fun hall => hall n hle hn hfree
        have hsame : SameElsewhere [] v (prepared b v P true n) := same_prepared hfree
        have htook := took_prepared hn hfree P true
        refine (any_hint (meets_fillEntry hw (meets_writerAlloc hw) hc hn hfree)).mono ?_
        rintro r p (⟨loc, l', rfl, hmade⟩ | ⟨rfl, hp, -⟩ | ⟨rfl, hp, -⟩)
        · obtain ⟨htaken, hkeep⟩ := hmade.took hw hc
          have hmem : P ∈ dirs := by
            rcases hP with rfl | hP
            · rw [(chained_zero b v.fat).chainOf_eq] at hmade
              exact absurd hmade.added Added.not_nil
            · exact hP
          have hmakes : Makes b (fun _ => True) v P (chainOf b v.fat P) name true (.ok (newEntry name true n loc)) p.1 :=
            .made hmade
          have hafter := (ha.makes hw hsized hmem hplain hmakes).2 _ rfl
          exact .inr ⟨hsome, htaken, hkeep, .inr ⟨_, _, rfl, hafter.forget, mem_cons_self⟩⟩
        · rw [hp]
          exact .inr ⟨hsome, htook, retains_of_same hsame, .inl ⟨_, rfl⟩⟩
        · rw [hp]
          exact .inr ⟨hsome, htook, retains_of_same hsame, .inl ⟨_, rfl⟩⟩
      · cases habs
    · rintro e p (⟨n', -, -, -, habs, -⟩ | ⟨herr, hp, hfull⟩)
      · cases habs
      · obtain rfl := Except.error.inj herr
        exact .inl ⟨rfl, hp, hfull⟩
  refine hmake.map.mono ?_
  rintro r p ⟨r₀, (⟨rfl, hp, hfull⟩ | ⟨hsome, htook, hkeep, ⟨e, rfl⟩ | ⟨e, dirs', rfl, ha', hmem⟩⟩), rfl⟩
  · exact .inl ⟨rfl, hp, hfull⟩
  · exact .inr ⟨hsome, htook, hkeep, .inl ⟨e, rfl⟩⟩
  · exact .inr ⟨hsome, htook, hkeep, .inr ⟨e.cluster, dirs', rfl, ha', hmem⟩⟩

theorem meets_enterAll (h : Nat) (comps : List Name) :
    Meets (Hinted b w₀) (enterAll b P comps) (v, h) (Entered b v h dirs (walkSubdirs b v P comps)) := by
  induction comps generalizing v dirs P h with
  | nil => exact of_runs (pure P _) (.found rfl hP)
  | cons comp comps ih =>
    rw [enterAll, enter, bind_assoc]
    by_cases hplain : isPlain comp = true
    · have hc := ha.place_chained hP
      have hfind := hinted (runs_searchDir hw (subdirAt (toAsciiLowercase comp)) none hc) (keeps_searchDir _ _ _) h
      refine bind_runs (failIf_false (not_not.mpr hplain) _ _) ?_
      rw [bind_assoc, walkSubdirs]
      rcases searched_subdir_cases (toAsciiLowercase comp) (dirSlots b v (chainOf b v.fat P)) with
        ⟨r, hr, hused, hdir, heq⟩ | heq | heq
      · have hplace : Place dirs (recCluster r.2) := by
          rcases hP with rfl | hP
          · rw [(chained_zero b v.fat).chainOf_eq] at hr
            cases hr
          · exact ha.named P hP r hr hused hdir
        rw [heq] at hfind ⊢
        exact bind_runs hfind (bind_runs (pure _ _) (ih ha hplace h))
      · rw [heq] at hfind ⊢
        refine bind_runs hfind ((meets_mkdir hw ha hP (isFree_of_isPlain hplain) h).bind ?_ ?_)
        · rintro c ⟨v₁, h₁⟩ (⟨habs, -⟩ | ⟨hsome, htook, hkeep, ⟨e, habs⟩ | ⟨c', dirs', hok, ha', hmem⟩⟩)
          · cases habs
          · cases habs
          · cases hok
            exact (ih ha' (.inr hmem) h₁).mono fun r p he => he.after ha' hsome htook hkeep
        · rintro e p (⟨herr, rfl, hfull⟩ | ⟨hsome, htook, hkeep, -⟩)
          · obtain rfl := Except.error.inj herr
            exact .full rfl hfull
          · exact .lost rfl hsome htook hkeep
      · rw [heq] at hfind
        exact of_runs hfind.bind_error (.refused (by decide))
    · exact of_runs (failIf_true hplain _ _).bind_error (.refused (by decide))

omit hw in
def Barely (b : Bpb) (dirs : List Nat) (v v' : Vol) : Prop :=
  v' = v ∨ ∃ Q ∈ dirs, ∃ last, (chainOf b v.fat Q).getLast? = some last ∧ v' = v.setClus last (retired (v.clus last))

/-- The record of a file: no cluster is given back, and without room for it next to nothing changes. -/
theorem meets_placeFile (name : Name) (first size : Nat) :
    Meets (Holds b w₀) (shortName b name P >>= fun short =>
      addDirRun b P (buildLfnRun name short ++ [dirRecord short 0x20 first size])) v fun r v' =>
      Retains v v' ∧ (r = .error .noSpace → Barely b dirs v v') := by
  have hc := ha.place_chained hP
  obtain ⟨r, hshort, rfl | ⟨short, rfl, hlen⟩⟩ := runs_shortName hw hc name
  · exact of_runs hshort.bind_error ⟨Retains.refl v, fun _ => .inl rfl⟩
  · have hrun : ∀ rec ∈ buildLfnRun name short ++ [dirRecord short 0x20 first size], rec.length = 32 := by
      intro rec hrec
      rcases mem_append.mp hrec with hrec | hrec
      · exact length_of_mem_buildLfnRun hrec
      · rw [mem_singleton.mp hrec]
        exact length_dirRecord hlen
    refine bind_runs hshort ((meets_addDirRun hw hc hrun).mono ?_)
    intro r v' hadds
    cases hadds with
    | empty | tooLong | noDir => exact ⟨Retains.refl v, fun _ => .inl rfl⟩
    | filled hf => exact ⟨retains_of_chained hf.same (hf.chained hw hc) hf.subset, fun habs => (nomatch habs)⟩
    | @full last hlast =>
      refine ⟨Retains.refl v, fun _ => .inr ⟨P, ?_, last, hlast, rfl⟩⟩
      rcases hP with rfl | hP
      · rw [(chained_zero b v.fat).chainOf_eq] at hlast
        cases hlast
      · exact hP

omit hw in
def Stores (b : Bpb) (v : Vol) (h : Nat) (data : List UInt8) : Prop :=
  data ≠ [] ∧ clustersFor b data.length ≤ freeFrom b v h

theorem meets_writeLeaf (h : Nat) (name : Name) (data : List UInt8) :
    Meets (Hinted b w₀) (writeContents b data >>= fun first => shortName b name P >>= fun short =>
      addDirRun b P (buildLfnRun name short ++ [dirRecord short 0x20 first data.length])) (v, h) fun r p =>
      Retains v p.1 ∧ (Stores b v h data → Took b v p.1) ∧
        (¬ Stores b v h data → r = .error .noSpace → Barely b dirs v p.1) := by
  by_cases hne : data = []
  · have hpure : Runs (Hinted b w₀) (writeContents b data) (v, h) (.ok 0) (v, h) := by
      rw [writeContents, if_pos hne]
      exact pure 0 _
    refine bind_runs hpure ((any_hint (meets_placeFile hw ha hP name 0 data.length)).mono ?_)
    exact fun r p hp => ⟨hp.1, fun hs => absurd hne hs.1, fun _ => hp.2⟩
  · refine (meets_writeContents hw v h hne).bind ?_ ?_
    · rintro first ⟨v₁, h₁⟩ (⟨c, cs, hlen, hnodup, hcs, -, hv₁, hmany⟩ | ⟨habs, -⟩)
      · obtain rfl : v₁ = fillAll b (linkAll v (c :: cs)) (c :: cs) data := hv₁
        have hsame := same_newData (b := b) (fun x hx => (hcs x hx).2) data
        have hchain := chained_linkAll hw (fun x hx => (hcs x hx).1) hnodup v
        have hc := hcs c mem_cons_self
        have htook : Took b v (fillAll b (linkAll v (c :: cs)) (c :: cs) data) := by
          refine ⟨c, hc.1, hc.2, ?_⟩
          rw [fat_fillAll]
          exact (hchain.mem c mem_cons_self).2
        refine (any_hint (meets_placeFile hw (ha.same hsame) hP name first data.length)).mono ?_
        rintro r p ⟨hkeep, -⟩
        exact ⟨(retains_of_same hsame).trans hkeep, fun _ => htook.retains hkeep,
          fun hfew => absurd ⟨hne, hmany⟩ hfew⟩
      · cases habs
    · rintro e p (⟨c, cs, -, -, -, habs, -⟩ | ⟨herr, rfl, hfew⟩)
      · cases habs
      · exact ⟨Retains.refl v, fun hs => absurd hs.2 (Nat.not_le.mpr hfew), fun _ _ => .inl rfl⟩

end

omit hw in
/-- The call takes clusters: for the data if the directories of the path are there, for a directory if one is
missing. -/
def TakesClusters (b : Bpb) (v : Vol) (h : Nat) (path : List Char) (data : List UInt8) : Prop :=
  match walkSubdirs b v b.rootClus (components path).dropLast with
  | some _ => Stores b v h data
  | none => ¬ Exhausted b v h

theorem meets_writeFile (ha : Authored b v dirs []) (h : Nat) (path : List Char) (data : List UInt8) :
    Meets (Hinted b w₀) (writeFile b path data) (v, h) fun r p => r = .error .noSpace →
      (TakesClusters b v h path data → Took b v p.1) ∧ (¬ TakesClusters b v h path data → Barely b dirs v p.1) := by
  unfold writeFile TakesClusters
  cases (components path).getLast? with
  | none => exact of_runs (throw _ _) fun habs => (nomatch habs)
  | some name =>
    refine (meets_enterAll hw ha (.inr ha.root) h _).bind ?_ ?_
    · rintro Q ⟨v₁, h₁⟩ he
      cases he with
      | found hwalk hQ =>
        rw [hwalk]
        exact (meets_writeLeaf hw ha hQ h name data).mono fun r p hp hr => ⟨hp.2.1, fun hs => hp.2.2 hs hr⟩
      | made hwalk hsome htook hkeep ha' hQ =>
        rw [hwalk]
        exact (meets_writeLeaf hw ha' hQ h₁ name data).mono fun r p hp _ =>
          ⟨fun _ => htook.retains hp.1, fun hall => absurd hsome hall⟩
    · rintro e p he herr
      cases he with
      | full hwalk hfull =>
        rw [hwalk]
        exact ⟨fun hsome => absurd hfull hsome, fun _ => .inl rfl⟩
      | lost hwalk hsome htook hkeep =>
        rw [hwalk]
        exact ⟨fun _ => htook, fun hall => absurd hsome hall⟩
      | refused hne => exact absurd (Except.error.inj herr) hne

end

end Ruos.Fat
