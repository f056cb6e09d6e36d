import Ruos.Lib.Run
import Ruos.Wasm.Demand

/-! What the page table and the registry have in common after any interleaving of faults, protection changes and
unmappings. -/
namespace Ruos.Wasm

open Lib Function Option Demand Nat

theorem lookup_cons (r : WtRange) (rs : List WtRange) (a : Nat) :
    lookup (r :: rs) a = if r.base ≤ a ∧ a < r.stop then some r.prot else lookup rs a := by
  unfold lookup
  by_cases h : r.base ≤ a ∧ a < r.stop <;> simp [h]

theorem lookup_append (xs ys : List WtRange) (a : Nat) : lookup (xs ++ ys) a = (lookup xs a).or (lookup ys a) := by
  unfold lookup
  rw [List.find?_append, map_or]

theorem lookup_carve {base stop : Nat} (h : base < stop) (r : WtRange) (a : Nat) :
    lookup (carve base stop r) a = if base ≤ a ∧ a < stop then none else lookup [r] a := by
  unfold carve
  split
  · grind [lookup]
  · grind [lookup]

theorem lookup_flatMap_carve {base stop : Nat} (h : base < stop) (ranges : List WtRange) (a : Nat) :
    lookup (ranges.flatMap (carve base stop)) a = if base ≤ a ∧ a < stop then none else lookup ranges a := by
  induction ranges with
  | nil => simp [lookup]
  | cons r rs ih =>
    rw [List.flatMap_cons, lookup_append, ih, lookup_carve h]
    have hcons : lookup (r :: rs) a = (lookup [r] a).or (lookup rs a) := lookup_append [r] rs a
    rw [hcons]
    by_cases hin : base ≤ a ∧ a < stop <;> simp [hin]

theorem lookup_setProt (ranges : List WtRange) (base stop prot a : Nat) :
    lookup (setProt ranges base stop prot) a = if base ≤ a ∧ a < stop then some prot else lookup ranges a := by
  unfold setProt
  split
  · rw [if_neg (by omega)]
  · rw [lookup_append, lookup_flatMap_carve (by omega), lookup_cons]
    by_cases hin : base ≤ a ∧ a < stop
    · simp [hin]
    · simp only [hin, if_false]
      simp [lookup]

theorem lookup_remove (ranges : List WtRange) (base stop a : Nat) :
    lookup (remove ranges base stop) a = if base ≤ a ∧ a < stop then none else lookup ranges a := by
  unfold remove
  split
  · rw [if_neg (by omega)]
  · rw [lookup_flatMap_carve (by omega)]

def Covers (base pages q : Nat) : Prop := base / page ≤ q ∧ q < base / page + pages

theorem covers_iff {base pages a : Nat} (h : page ∣ base) (hlt : base + pages * page < 2 ^ 64) :
    base ≤ a ∧ a < stopOf base pages ↔ Covers base pages (a / page) := by
  unfold stopOf Covers
  unfold page at *
  omega

/-- The calls are made on reserved ranges of whole pages, and the window is not used up. -/
def OnReserved (s : Demand) : DemandStep → Prop
  | .mmapNew _ size _ => s.next + pagesOf size * page < 2 ^ 64
  | .mprotect _ base size _ | .mmapRemap _ base size _ | .munmap _ base size =>
    page ∣ base ∧ base + pagesOf size * page ≤ s.next
  | _ => True

/-- Where a call ends, the range is as the call left it in its first step: a page that is about to be mapped still has
the protection that was looked up, the pages whose flags are about to be set still have the protection that was
recorded, which is not none, and in a range that was unmapped no page is mapped. -/
def Undisturbed (s : Demand) : DemandStep → Prop
  | .finish core =>
    match s.cores core with
    | .framed q prot _ => s.table q = none → s.protection (page * q) = some prot
    | .protecting base pages prot => ∀ q, Covers base pages q → s.table q ≠ none →
        s.protection (page * q) = some prot ∧ prot &&& protRwx ≠ 0
    | .remapping base pages _ | .unmapping base pages => ∀ q, Covers base pages q → s.table q = none
    | _ => True
  | _ => True

def Placed (next : Nat) : Pending → Prop
  | .idle => True
  | .found _ prot | .framed _ prot _ => prot &&& protRwx ≠ 0
  | .protecting base pages _ | .remapping base pages _ | .unmapping base pages =>
    page ∣ base ∧ base + pages * page ≤ next

/-- The page has the flags of the protection, and that is not none. -/
def Matches (prot : Nat) (e : Entry) : Prop := prot &&& protRwx ≠ 0 ∧ e.flags = protToFlags prot

def Unsettled (s : Demand) (q : Nat) : Prop :=
  ∃ core base pages prot, s.cores core = .protecting base pages prot ∧ Covers base pages q

structure Sound (s : Demand) : Prop where
  registry : ∀ a, lookup s.ranges a = s.protection a
  aligned : page ∣ s.next
  bounded : s.next < 2 ^ 64
  uniform : ∀ a, s.protection a = s.protection (page * (a / page))
  fresh : ∀ a, s.next ≤ a → s.protection a = none
  placed : ∀ core, Placed s.next (s.cores core)
  mapped : ∀ q e, s.table q = some e →
    ∃ prot, s.protection (page * q) = some prot ∧ (Matches prot e ∨ Unsettled s q)

namespace Sound

variable {s : Demand}

theorem new : Sound new where
  registry := fun _ => rfl
  aligned := ⟨0xFFFFD00000000, rfl⟩
  bounded := by decide
  uniform := fun _ => rfl
  fresh := fun _ _ => rfl
  placed := fun _ => trivial
  mapped := fun q e h => by cases h

theorem page_mul_div (q : Nat) : page * q / page = q := Nat.mul_div_cancel_left q (by decide)

theorem goto (h : Sound s) {core : Nat} {p : Pending} (hp : Placed s.next p)
    (hnot : ∀ base pages prot, s.cores core ≠ .protecting base pages prot) : Sound (s.goto core p) where
  __ := h
  placed := by
    intro c
    unfold Demand.goto
    simp only [update_apply]
    split
    · exact hp
    · exact h.placed c
  mapped := by
    intro q e hq
    obtain ⟨prot, hprot, hm⟩ := h.mapped q e hq
    refine ⟨prot, hprot, hm.imp_right ?_⟩
    rintro ⟨c, base, pages, prot', hc, hcov⟩
    have hne : c ≠ core := fun heq => hnot base pages prot' (heq ▸ hc)
    exact ⟨c, base, pages, prot', by simp only [Demand.goto, update_of_ne hne]; exact hc, hcov⟩

theorem shrink (h : Sound s) {table : PageTable} (ht : ∀ q e, table q = some e → s.table q = some e) :
    Sound { s with table := table } :=
  { h with mapped := fun q e hq => h.mapped q e (ht q e hq) }

/-- The registry may change on whole pages, if every mapped page there is one whose flags are still to be set. -/
theorem change (h : Sound s) {base pages : Nat} {v : Option Nat} {ranges : List WtRange} (hal : page ∣ base)
    (hle : base + pages * page ≤ s.next)
    (hlook : ∀ a, lookup ranges a = if base ≤ a ∧ a < stopOf base pages then v else lookup s.ranges a)
    (hmap : ∀ q, Covers base pages q → s.table q ≠ none → v ≠ none ∧ Unsettled s q) : Sound { s with
      ranges := ranges
      protection := fun a => if base ≤ a ∧ a < stopOf base pages then v else s.protection a } := by
  have hlt := h.bounded
  have hcov (a : Nat) : base ≤ a ∧ a < stopOf base pages ↔ Covers base pages (a / page) :=
    covers_iff hal (by omega)
  have hpage (q : Nat) : base ≤ page * q ∧ page * q < stopOf base pages ↔ Covers base pages q := by
    rw [hcov, page_mul_div]
  refine ⟨?_, h.aligned, h.bounded, ?_, ?_, h.placed, ?_⟩
  · intro a
    simp only [hlook a, h.registry a]
  · intro a
    change (if base ≤ a ∧ a < stopOf base pages then v else s.protection a) = if _ then v else _
    by_cases hin : base ≤ a ∧ a < stopOf base pages
    · rw [if_pos hin, if_pos ((hpage _).mpr ((hcov a).mp hin))]
    · rw [if_neg hin, if_neg fun hc => hin ((hcov a).mpr ((hpage _).mp hc))]
      exact h.uniform a
  · intro a ha
    change s.next ≤ a at ha
    have hout : ¬ (base ≤ a ∧ a < stopOf base pages) := by
      unfold stopOf
      omega
    change (if _ then v else s.protection a) = none
    rw [if_neg hout]
    exact h.fresh a ha
  · intro q e hq
    change ∃ prot, (if base ≤ page * q ∧ page * q < stopOf base pages then v else s.protection (page * q)) = some prot ∧ _
    by_cases hc : Covers base pages q
    · obtain ⟨hv, hun⟩ := hmap q hc (by rw [hq]; simp)
      obtain ⟨prot, hprot⟩ := ne_none_iff_exists'.mp hv
      exact ⟨prot, by rw [if_pos ((hpage q).mpr hc), hprot], .inr hun⟩
    · rw [if_neg fun hin => hc ((hpage q).mp hin)]
      exact h.mapped q e hq

theorem Placed.mono {next next' : Nat} (hle : next ≤ next') {p : Pending} (h : Placed next p) : Placed next' p := by
  cases p with
  | idle => trivial
  | found | framed => exact h
  | protecting | remapping | unmapping => exact ⟨h.1, le_trans h.2 hle⟩

theorem raise (h : Sound s) {next : Nat} (hal : page ∣ next) (hle : s.next ≤ next) (hlt : next < 2 ^ 64) :
    Sound { s with next := next } :=
  ⟨h.registry, hal, hlt, h.uniform, fun a ha => h.fresh a (le_trans hle ha), fun c => Placed.mono hle (h.placed c),
    h.mapped⟩

theorem fill (h : Sound s) {q prot frame : Nat} (hacc : prot &&& protRwx ≠ 0)
    (hprot : s.table q = none → s.protection (page * q) = some prot) :
    Sound { s with table := mapPage s.table q frame (protToFlags prot) } := by
  unfold mapPage
  cases hq : s.table q with
  | some e => exact h
  | none =>
    refine { h with mapped := ?_ }
    intro q' e he
    change update s.table q _ q' = some e at he
    by_cases hne : q' = q
    · subst hne
      rw [update_self] at he
      cases he
      exact ⟨prot, hprot hq, .inl ⟨hacc, rfl⟩⟩
    · rw [update_of_ne hne] at he
      exact h.mapped q' e he

/-- The pages of a range get the flags of their protection, and the call that had to set them is over. -/
theorem settle (h : Sound s) {core base pages prot : Nat} (hcore : s.cores core = .protecting base pages prot)
    (hprot : ∀ q, Covers base pages q → s.table q ≠ none →
      s.protection (page * q) = some prot ∧ prot &&& protRwx ≠ 0) :
    Sound ({ s with table := setFlagsRange s.table (base / page) pages (protToFlags prot) }.goto core .idle) := by
  refine { h with placed := ?_, mapped := ?_ }
  · intro c
    change Placed s.next (update s.cores core .idle c)
    rw [update_apply]
    split
    · trivial
    · exact h.placed c
  · intro q e he
    change setFlagsRange s.table (base / page) pages (protToFlags prot) q = some e at he
    unfold setFlagsRange at he
    by_cases hc : Covers base pages q
    · rw [if_pos (show base / page ≤ q ∧ q < base / page + pages from hc)] at he
      obtain ⟨e', he', rfl⟩ := map_eq_some_iff.mp he
      obtain ⟨hp, hacc⟩ := hprot q hc (by rw [he']; simp)
      exact ⟨prot, hp, .inl ⟨hacc, rfl⟩⟩
    · rw [if_neg (show ¬ (base / page ≤ q ∧ q < base / page + pages) from hc)] at he
      obtain ⟨prot', hp, hm⟩ := h.mapped q e he
      refine ⟨prot', hp, hm.imp_right ?_⟩
      rintro ⟨c, base', pages', prot'', hc', hcov⟩
      have hne : c ≠ core := by
        intro heq
        rw [heq, hcore] at hc'
        cases hc'
        exact hc hcov
      refine ⟨c, base', pages', prot'', ?_, hcov⟩
      change update s.cores core .idle c = _
      rw [update_of_ne hne]
      exact hc'

theorem unmapRange_some {pt : PageTable} {first pages q : Nat} {e : Entry} (h : unmapRange pt first pages q = some e) :
    pt q = some e := by
  unfold unmapRange at h
  split at h
  · cases h
  · exact h

variable {s' : Demand}

theorem start (h : Sound s) {core : Nat} {e : DemandStep} (hidle : s.cores core = .idle) (hres : OnReserved s e)
    (hs : s.start core e = some s') : Sound s' := by
  have hnot (base pages prot : Nat) : s.cores core ≠ .protecting base pages prot := by
    rw [hidle]
    intro heq
    cases heq
  cases e with
  | mmapNew c size prot =>
    cases hs
    have hlt : s.next + pagesOf size * page < 2 ^ 64 := hres
    have hstop : stopOf s.next (pagesOf size) = s.next + pagesOf size * page := mod_eq_of_lt hlt
    have hraised : Sound { s with next := stopOf s.next (pagesOf size) } := by
      refine h.raise ?_ (by omega) (by omega)
      rw [hstop]
      exact dvd_add h.aligned (dvd_mul_left _ _)
    refine hraised.change h.aligned (le_of_eq hstop.symm) (lookup_setProt _ _ _ _) ?_
    intro q hcov hq
    obtain ⟨e, he⟩ := ne_none_iff_exists'.mp hq
    obtain ⟨prot', hprot, -⟩ := h.mapped q e he
    have hin := (covers_iff h.aligned hlt).mpr (by rwa [page_mul_div])
    rw [h.fresh _ hin.1] at hprot
    cases hprot
  | commitFault c cr2 =>
    unfold Demand.start at hs
    simp only at hs
    split at hs
    · split at hs
      · split at hs
        · rename_i hacc
          cases hs
          exact h.goto hacc hnot
        · cases hs
          exact h
      · cases hs
        exact h
    · cases hs
      exact h
  | mprotect c base size prot =>
    cases hs
    obtain ⟨hal, hle⟩ := hres
    have hgo : Sound (s.goto core (.protecting base (pagesOf size) prot)) := h.goto ⟨hal, hle⟩ hnot
    refine hgo.change hal hle (lookup_setProt _ _ _ _) ?_
    intro q hcov _
    refine ⟨some_ne_none _, core, base, pagesOf size, prot, ?_, hcov⟩
    exact update_self _ _ _
  | mmapRemap | munmap =>
    cases hs
    exact (h.shrink fun q e hq => unmapRange_some hq).goto hres hnot
  | allocateFrame | mapFails | finish => cases hs

theorem finish (h : Sound s) {core : Nat} (hund : Undisturbed s (.finish core)) (hs : s.finish core = some s') :
    Sound s' := by
  have hplaced := h.placed core
  unfold Demand.finish at hs
  simp only [Undisturbed] at hund
  cases hcore : s.cores core with
  | idle | found =>
    rw [hcore] at hs
    cases hs
  | framed q prot frame =>
    rw [hcore] at hs hund hplaced
    cases hs
    exact (h.fill hplaced hund).goto trivial (by simp [hcore])
  | protecting base pages prot =>
    rw [hcore] at hs hund
    cases hs
    exact h.settle hcore hund
  | remapping base pages prot =>
    rw [hcore] at hs hund hplaced
    cases hs
    have hchanged := h.change (v := some prot) hplaced.1 hplaced.2 (lookup_setProt _ _ _ _)
      (fun q hcov hq => absurd (hund q hcov) hq)
    exact hchanged.goto trivial (by simp [hcore])
  | unmapping base pages =>
    rw [hcore] at hs hund hplaced
    cases hs
    have hchanged := h.change hplaced.1 hplaced.2 (lookup_remove _ _ _)
      (fun q hcov hq => absurd (hund q hcov) hq)
    exact hchanged.goto trivial (by simp [hcore])

theorem step (h : Sound s) {e : DemandStep} (hg : OnReserved s e ∧ Undisturbed s e) (hs : s.step e = some s') :
    Sound s' := by
  have hstart {core : Nat} (hs : (if s.cores core = .idle then s.start core e else none) = some s') : Sound s' := by
    split at hs
    · rename_i hidle
      exact h.start hidle hg.1 hs
    · cases hs
  cases e with
  | mmapNew | commitFault | mprotect | mmapRemap | munmap => exact hstart hs
  | allocateFrame core frame =>
    have hplaced := h.placed core
    simp only [Demand.step] at hs
    split at hs <;> cases hs
    rename_i q prot hcore
    rw [hcore] at hplaced
    exact h.goto hplaced (by simp [hcore])
  | mapFails core =>
    simp only [Demand.step] at hs
    split at hs <;> cases hs
    rename_i hcore
    exact h.goto trivial (by simp [hcore])
  | finish core => exact h.finish hg.2 hs

end Sound

/-- In every run on reserved ranges in which no call is disturbed between its steps: when no call is in progress,
every mapped page is in a registered range and has exactly the flags of the protection last set, which is not none. -/
theorem demand_consistent {es : List DemandStep} {s : Demand}
    (hg : Guarded Demand.step (fun s e => OnReserved s e ∧ Undisturbed s e) Demand.new es)
    (hrun : exec Demand.step Demand.new es = some s) (hquiet : ∀ core, s.cores core = .idle) :
    ∀ a e, s.table (a / page) = some e →
      ∃ prot, s.protection a = some prot ∧ lookup s.ranges a = some prot ∧ prot &&& protRwx ≠ 0 ∧
        e.flags = protToFlags prot := by
  have h : Sound s := exec_invariant (fun s e s' hs hg hstep => hs.step hg hstep) Sound.new hg hrun
  intro a e he
  obtain ⟨prot, hprot, hm⟩ := h.mapped _ e he
  have ha : s.protection a = some prot := by rw [h.uniform a, hprot]
  refine ⟨prot, ha, by rw [h.registry a, ha], ?_⟩
  rcases hm with hm | ⟨core, base, pages, prot', hcore, -⟩
  · exact hm
  · rw [hquiet core] at hcore
    cases hcore

def onePage : Demand where
  next := wtVmBase + page
  ranges := [⟨wtVmBase, wtVmBase + page, 3⟩]
  table := fun _ => none
  cores := fun _ => .idle
  protection := fun a => if wtVmBase ≤ a ∧ a < wtVmBase + page then some 3 else none

theorem reserve_onePage : step new (.mmapNew 0 page 3) = some onePage := by
  change some { new.record wtVmBase (pagesOf page) 3 with next := stopOf wtVmBase (pagesOf page) } = _
  rfl

theorem demand_consistent_one_page :
    ∃ es s, Guarded Demand.step (fun s e => OnReserved s e ∧ Undisturbed s e) Demand.new es ∧
      exec Demand.step Demand.new es = some s ∧ ∃ prot, lookup s.ranges wtVmBase = some prot ∧
        s.table (wtVmBase / page) = some ⟨7, protToFlags prot⟩ := by
  let es : List DemandStep := [.mmapNew 0 page 3, .commitFault 0 wtVmBase, .allocateFrame 0 7, .finish 0,
    .mprotect 0 wtVmBase page 1, .finish 0]
  have hg : Guarded step (fun s e => OnReserved s e ∧ Undisturbed s e) new es := by
    refine .cons ⟨show wtVmBase + pagesOf page * page < 2 ^ 64 by decide, trivial⟩ reserve_onePage ?_
    refine .cons ⟨trivial, trivial⟩ rfl ?_
    refine .cons ⟨trivial, trivial⟩ rfl ?_
    refine .cons ⟨trivial, fun _ => rfl⟩ rfl ?_
    refine .cons ⟨⟨by decide, by decide⟩, trivial⟩ rfl ?_
    refine .cons ⟨trivial, fun q hcov _ => ?_⟩ rfl trivial
    have hpages : pagesOf page = 1 := by decide
    obtain rfl : q = wtVmBase / page := by
      unfold Covers at hcov
      omega
    exact ⟨rfl, by decide⟩
  have hrun : ∃ s, exec step new es = some s ∧ (∀ core, s.cores core = .idle) ∧
      s.table (wtVmBase / page) = some ⟨7, protToFlags 1⟩ := by
    refine ⟨_, exec_cons.mpr ⟨onePage, reserve_onePage, rfl⟩, fun core => ?_, rfl⟩
    by_cases h0 : core = 0
    · subst h0
      rfl
    · simp [goto, record, onePage]
  obtain ⟨s, hs, hquiet, htable⟩ := hrun
  obtain ⟨prot, -, hlook, -, hflags⟩ := demand_consistent hg hs hquiet wtVmBase _ htable
  have hflags' : protToFlags 1 = protToFlags prot := hflags
  exact ⟨es, s, hg, hs, prot, hlook, by rw [htable, hflags']⟩

/-- A core looks the protection up, another core unmaps the range, and the first one maps its page all the same. -/
theorem munmap_during_fault :
    ∃ es s, Guarded Demand.step OnReserved Demand.new es ∧ exec Demand.step Demand.new es = some s ∧
      (∀ core, s.cores core = .idle) ∧ s.table (wtVmBase / page) = some ⟨7, ⟨true, true, true⟩⟩ ∧
      lookup s.ranges wtVmBase = none := by
  let es : List DemandStep := [.commitFault 0 wtVmBase, .allocateFrame 0 7, .munmap 1 wtVmBase page, .finish 1, .finish 0]
  refine ⟨.mmapNew 0 page 3 :: es, _, ?_, exec_cons.mpr ⟨onePage, reserve_onePage, rfl⟩, ?_, rfl, rfl⟩
  · refine .cons (show wtVmBase + pagesOf page * page < 2 ^ 64 by decide) reserve_onePage ?_
    refine .cons trivial rfl ?_
    refine .cons trivial rfl ?_
    refine .cons ⟨by decide, by decide⟩ rfl ?_
    refine .cons trivial rfl ?_
    exact .cons trivial rfl trivial
  · intro core
    by_cases h0 : core = 0
    · subst h0
      rfl
    · by_cases h1 : core = 1
      · subst h1
        rfl
      · simp [goto, forget, h0, h1, onePage]

end Ruos.Wasm
