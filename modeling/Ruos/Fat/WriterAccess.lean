import Ruos.Fat.Make
import Ruos.Fat.Writer

/-! The calls of `FatWriter` on a device that does not fail, in terms of the volume it holds. -/
namespace Ruos.Fat.FatWriter

open Lib Vfs Block ErrorFree BlockDevice List Nat

section

variable {S : Type}

theorem onDev_ok {α : Type} {x : EStateM BlockError S α} {w : FatWriter S} {a : α} {d : S} (h : x w.dev = .ok a d) :
    onDev x w = .ok a { w with dev := d } := by
  simp only [onDev, h]

theorem onDev_error {α : Type} {x : EStateM BlockError S α} {w : FatWriter S} {e : BlockError} {d : S}
    (h : x w.dev = .error e d) : onDev x w = .error e { w with dev := d } := by
  simp only [onDev, h]

variable [BlockDevice S] [ErrorFree S]

instance : ErrorFree (FatWriter S) where
  mem w := mem w.dev
  blocks w := blocks w.dev
  frame w w' := frame w.dev w'.dev
  frame_refl w := frame_refl w.dev
  frame_trans h h' := frame_trans h h'
  blocks_lt w := blocks_lt w.dev
  frame_blocks h := frame_blocks h
  frame_count {w w'} h := by
    have hcount := frame_count h
    exact hcount
  blockSize_eq w := blockSize_eq w.dev
  read_ok hn h := onDev_ok (read_ok hn h)
  read_error hn h := by
    obtain ⟨e, he⟩ := read_error hn h
    exact ⟨e, onDev_error he⟩
  write_ok hn hlen h := by
    obtain ⟨d', hw, hmem, hf⟩ := write_ok hn hlen h
    exact ⟨_, onDev_ok hw, hmem, hf⟩
  write_error hn hlen h := by
    obtain ⟨e, he⟩ := write_error hn hlen h
    exact ⟨e, onDev_error he⟩

end

section

variable {S ε α β : Type} {x : EStateM ε (FatWriter S) α} {f : α → EStateM ε (FatWriter S) β} {b : Bpb}

def Keeps (x : EStateM ε (FatWriter S) α) : Prop := ∀ w, (reply x w).2.nextFree = w.nextFree

theorem Keeps.pure (a : α) : Keeps (pure a : EStateM ε (FatWriter S) α) := fun _ => rfl

theorem Keeps.throw (e : ε) : Keeps (throw e : EStateM ε (FatWriter S) α) := fun _ => rfl

theorem Keeps.bind (hx : Keeps x) (hf : ∀ a, Keeps (f a)) : Keeps (x >>= f) := by
  intro w
  have hstart := hx w
  cases hw : x w with
  | ok a w' =>
    have hstep : (x >>= f) w = f a w' := bind_of_ok hw
    have hreply : reply (x >>= f) w = reply (f a) w' := by rw [reply, reply, hstep]
    have hmid := reply_eq (r := .ok a) hw
    rw [hreply, hf a w']
    rw [hmid] at hstart
    exact hstart
  | error e w' =>
    have hstep : (x >>= f) w = outcome (.error e) w' := by
      change EStateM.bind x f w = _
      rw [EStateM.bind, hw]
      rfl
    have hmid := reply_eq (r := .error e) hw
    rw [reply_eq hstep]
    rw [hmid] at hstart
    exact hstart

theorem Keeps.failIf (p : Prop) [Decidable p] (e : ε) : Keeps (failIf p e : EStateM ε (FatWriter S) Unit) := by
  unfold Lib.failIf
  by_cases hp : p
  · rw [if_pos hp]
    exact .throw e
  · rw [if_neg hp]
    exact .pure ()

variable [BlockDevice S]

theorem keeps_readSector (k : Nat) : Keeps (readSector k : FatM (FatWriter S) (List UInt8)) := by
  intro w
  simp only [reply, readSector, mapErr, readBlocks, onDev]
  cases readBlocks k 512 w.dev <;> rfl

theorem keeps_readSectors (sec k : Nat) : Keeps (readSectors sec k : FatM (FatWriter S) (List UInt8)) := by
  induction k generalizing sec with
  | zero => exact .pure []
  | succ k ih => exact (keeps_readSector sec).bind fun _ => (ih (sec + 1)).bind fun _ => .pure _

theorem keeps_cachedSector (cached : Option (Nat × List UInt8)) (k : Nat) :
    Keeps (cachedSector cached k : FatM (FatWriter S) (List UInt8)) := by
  cases cached with
  | none => exact keeps_readSector k
  | some p =>
    unfold cachedSector
    by_cases heq : p.1 = k
    · simp only [heq, if_true]
      exact .pure p.2
    · simp only [heq, if_false]
      exact keeps_readSector k

theorem keeps_chainFrom (left c : Nat) (cached : Option (Nat × List UInt8)) :
    Keeps (chainFrom b left c cached : FatM (FatWriter S) (List Nat)) := by
  induction left generalizing c cached with
  | zero =>
    unfold chainFrom
    split_ifs
    · exact .throw _
    · exact .pure []
  | succ left ih =>
    unfold chainFrom
    split_ifs
    · exact (keeps_cachedSector _ _).bind fun _ => (Keeps.failIf _ _).bind fun _ => (ih _ _).bind fun _ => .pure _
    · exact .pure []

theorem keeps_scanFrom (k n : Nat) (cached : Option (Nat × List UInt8)) :
    Keeps (scanFrom b k n cached : FatM (FatWriter S) Nat) := by
  induction k generalizing n cached with
  | zero => exact .pure n
  | succ k ih =>
    refine (keeps_cachedSector _ _).bind fun buf => ?_
    split_ifs
    · exact .pure n
    · exact ih _ _

theorem keeps_searchDir (look : List UInt8 → Option (Except VfsError α)) (absent : α) (c : Nat) :
    Keeps (searchDir b look absent c : FatM (FatWriter S) α) := by
  have hclusters : ∀ cs, Keeps (searchClusters b look absent cs : FatM (FatWriter S) α) := by
    intro cs
    induction cs with
    | nil => exact .pure absent
    | cons c cs ih =>
      refine (keeps_readSectors _ _).bind fun buf => ?_
      cases (records buf).findSome? look with
      | none => exact ih
      | some r =>
        cases r with
        | ok a => exact .pure a
        | error e => exact .throw e
  exact (keeps_chainFrom _ _ _).bind hclusters

theorem keeps_writeSector (k : Nat) (buf : List UInt8) : Keeps (writeSector k buf : FatM (FatWriter S) Unit) := by
  intro w
  simp only [reply, writeSector, mapErr, writeBlocks, onDev]
  cases writeBlocks k buf w.dev <;> rfl

theorem keeps_writeCluster (n : Nat) (data : List UInt8) : Keeps (writeCluster b n data : FatM (FatWriter S) Unit) := by
  have hsectors : ∀ k sec data, Keeps (writeSectors sec data k : FatM (FatWriter S) Unit) := by
    intro k
    induction k with
    | zero => exact fun _ _ => .pure ()
    | succ k ih => exact fun sec data => (keeps_writeSector sec _).bind fun _ => ih _ _
  exact hsectors _ _ _

theorem keeps_writeFatEntry (n x : Nat) : Keeps (writeFatEntry b n x : FatM (FatWriter S) Unit) := by
  have hcopies : ∀ k stride off sec, Keeps (writeFatCopies stride off x sec k : FatM (FatWriter S) Unit) := by
    intro k
    induction k with
    | zero => exact fun _ _ _ => .pure ()
    | succ k ih =>
      exact fun stride off sec => (keeps_readSector sec).bind fun _ => (keeps_writeSector sec _).bind fun _ => ih _ _ _
  exact hcopies _ _ _ _

end

variable {S : Type} [BlockDevice S] [ErrorFree S] {s₀ : S} {w₀ : FatWriter S} {b : Bpb} {v v' : Vol} {c n k h : Nat}
  {l : List Nat}

/-- The first free cluster of the `k` clusters from `n` on, or the one behind them. -/
def firstFree (fat : Nat → Nat) : (k n : Nat) → Nat
  | 0, n => n
  | k + 1, n => if fat n = 0 then n else firstFree fat k (n + 1)

theorem firstFree_spec (fat : Nat → Nat) (k n : Nat) :
    n ≤ firstFree fat k n ∧ (firstFree fat k n = n + k ∨ firstFree fat k n < n + k ∧ fat (firstFree fat k n) = 0) ∧
      ∀ i, n ≤ i → i < firstFree fat k n → fat i ≠ 0 := by
  induction k generalizing n with
  | zero =>
    refine ⟨le_refl n, .inl rfl, fun i hi hlt => ?_⟩
    rw [firstFree] at hlt
    omega
  | succ k ih =>
    rw [firstFree]
    by_cases hfree : fat n = 0
    · rw [if_pos hfree]
      refine ⟨le_refl n, .inr ⟨by omega, hfree⟩, fun i hi hlt => ?_⟩
      omega
    · obtain ⟨hle, hend, hused⟩ := ih (n + 1)
      rw [if_neg hfree]
      refine ⟨by omega, ?_, fun i hi hlt => ?_⟩
      · rcases hend with hend | ⟨hlt, hzero⟩
        · exact .inl (by omega)
        · exact .inr ⟨by omega, hzero⟩
      · rcases eq_or_lt_of_le hi with rfl | hi
        · exact hfree
        · exact hused i hi hlt

/-- The state of a writer: the volume, and where the next search starts. -/
def Hinted (b : Bpb) (w₀ w : FatWriter S) (x : Vol × Nat) : Prop := Holds b w₀ w x.1 ∧ w.nextFree = x.2

/-- No cluster is free from the hint on. -/
def Exhausted (b : Bpb) (v : Vol) (h : Nat) : Prop := ∀ i, h ≤ i → b.IsCluster i → v.fat i ≠ 0

variable {ε α : Type}

variable {x : EStateM ε (FatWriter S) α}

theorem Meets.of_hinted {P : Except ε α → Vol → Prop} (hx : ∀ h, Meets (Hinted b w₀) x (v, h) fun r p => P r p.1) :
    Meets (Holds b w₀) x v P := by
  intro w hw
  obtain ⟨r, w', p, hrun, hw', hP⟩ := hx w.nextFree w ⟨hw, rfl⟩
  exact ⟨r, w', p.1, hrun, hw'.1, hP⟩

theorem Runs.hinted {r : Except ε α} (hx : Runs (Holds b w₀) x v r v') (hk : Keeps x) (h : Nat) :
    Runs (Hinted b w₀) x (v, h) r (v', h) := by
  rintro w ⟨hw, rfl⟩
  obtain ⟨w', hrun, hw'⟩ := hx w hw
  have hkeep := hk w
  rw [reply_eq hrun] at hkeep
  exact ⟨w', hrun, hw', hkeep⟩

theorem Meets.any_hint {P : Except ε α → Vol → Prop} (hx : Meets (Holds b w₀) x v P) :
    Meets (Hinted b w₀) x (v, h) fun r p => P r p.1 := by
  rintro w ⟨hw, -⟩
  obtain ⟨r, w', v', hrun, hw', hP⟩ := hx w hw
  exact ⟨r, w', (v', w'.nextFree), hrun, ⟨hw', rfl⟩, hP⟩

theorem Meets.sized_hinted {Q : Except ε α → Vol × Nat → Prop} (hx : Sized b v → Meets (Hinted b w₀) x (v, h) Q) :
    Meets (Hinted b w₀) x (v, h) Q :=
  fun w hw => hx hw.1.sized w hw

section

theorem runs_scanFrom (hw : b.WellSized (blocks s₀)) (h2 : 2 ≤ n) (hk : n + k ≤ b.maxCluster) :
    Runs (Holds b s₀) (scanFrom b k n none) v (.ok (firstFree v.fat k n)) v := by
  have hstored : ∀ {m : Mem} {n k : Nat} {cached : Option (Nat × List UInt8)}, Mounted b m v → Cached m cached → 2 ≤ n →
      n + k ≤ b.maxCluster → Runs (Stored s₀) (scanFrom b k n cached) m (.ok (firstFree v.fat k n)) m := by
    intro m n k cached hm hc h2 hk
    induction k generalizing n cached with
    | zero => exact Runs.pure n m
    | succ k ih =>
      have hn : b.IsCluster n := ⟨h2, by omega⟩
      have hsec := hw.fatSector_lt hn hw.fats_pos
      have hdata := hw.dataStart_le
      have hentry : fatEntry (m.read (512 * (b.fatEntryLoc n).1) 512) (b.fatEntryLoc n).2 = v.fat n := by
        rw [fatEntry_read, hm.fat n (hw.entry_lt hn)]
      refine (runs_cachedSector hc (by omega)).bind ?_
      rw [hentry, firstFree]
      by_cases hfree : v.fat n = 0
      · rw [if_pos hfree, if_pos hfree]
        exact Runs.pure n m
      · rw [if_neg hfree, if_neg hfree]
        exact ih (cached_read m _) (by omega) (by omega)
  exact Holds.of_stored fun m hm => ⟨m, hstored hm (fun _ hp => nomatch hp) h2 hk, hm⟩

variable (hw : b.WellSized (blocks w₀))
include hw

/-- The next free cluster is taken, and the hint moves behind it; or there is none from the hint on. -/
theorem meets_takeFreeCluster (v : Vol) (h : Nat) :
    Meets (Hinted b w₀) (takeFreeCluster b) (v, h) fun r p => p.1 = v ∧
      ((∃ n, b.IsCluster n ∧ h ≤ n ∧ v.fat n = 0 ∧ r = .ok n ∧ p.2 = n + 1) ∨
        (r = .error .noSpace ∧ p.2 = h ∧ Exhausted b v h)) := by
  rintro w ⟨hv, rfl⟩
  obtain ⟨n, hn⟩ : ∃ n, n = firstFree v.fat (b.maxCluster - max w.nextFree 2) (max w.nextFree 2) := ⟨_, rfl⟩
  have hspec := firstFree_spec v.fat (b.maxCluster - max w.nextFree 2) (max w.nextFree 2)
  rw [← hn] at hspec
  obtain ⟨hle, hend, hused⟩ := hspec
  have hscan : Runs (Hinted b w₀) (scanFrom b (b.maxCluster - max w.nextFree 2) (max w.nextFree 2) none)
      (v, w.nextFree) (.ok n) (v, w.nextFree) := by
    by_cases hmax : max w.nextFree 2 ≤ b.maxCluster
    · have hrun := runs_scanFrom (v := v) hw (Nat.le_max_right w.nextFree 2)
        (Nat.le_of_eq (Nat.add_sub_cancel' hmax))
      rw [← hn] at hrun
      exact Runs.hinted hrun (keeps_scanFrom _ _ _) _
    · have hzero : b.maxCluster - max w.nextFree 2 = 0 := by omega
      rw [hzero] at hn ⊢
      rw [hn]
      exact Runs.pure _ _
  obtain ⟨w₁, hrun, hw₁⟩ := hscan w ⟨hv, rfl⟩
  have hstep : takeFreeCluster b w =
      ((failIf (b.maxCluster ≤ n) .noSpace >>= fun _ => setNextFree (n + 1) >>= fun _ => pure n) :
        FatM (FatWriter S) Nat) w₁ := bind_of_ok hrun
  by_cases hfull : b.maxCluster ≤ n
  · refine ⟨.error .noSpace, w₁, (v, w.nextFree), ?_, hw₁, rfl, .inr ⟨rfl, rfl, fun i hi hc => ?_⟩⟩
    · rw [hstep, failIf, if_pos hfull]
      rfl
    · exact hused i (Nat.max_le.mpr ⟨hi, hc.1⟩) (Nat.lt_of_lt_of_le hc.2 hfull)
  · have hlt : n < b.maxCluster := Nat.lt_of_not_le hfull
    have hlow := Nat.max_le.mp hle
    have hzero : v.fat n = 0 := by
      rcases hend with hend | ⟨-, hzero⟩
      · omega
      · exact hzero
    refine ⟨.ok n, { w₁ with nextFree := n + 1 }, (v, n + 1), ?_, ⟨hw₁.1, rfl⟩, rfl,
      .inl ⟨n, ⟨hlow.2, hlt⟩, hlow.1, hzero, rfl, rfl⟩⟩
    rw [hstep, failIf, if_neg hfull]
    rfl

theorem meets_allocCluster_hinted (v : Vol) (h : Nat) : Meets (Hinted b w₀) (allocCluster b) (v, h) fun r p =>
      (∃ n, b.IsCluster n ∧ h ≤ n ∧ v.fat n = 0 ∧ r = .ok n ∧ p = (v.alloc b n, n + 1)) ∨
        (r = .error .noSpace ∧ p = (v, h) ∧ Exhausted b v h) := by
  refine (meets_takeFreeCluster hw v h).bind ?_ ?_
  · rintro n ⟨v', h'⟩ ⟨rfl, ⟨n', hn, hle, hfree, hok, rfl⟩ | ⟨habs, -⟩⟩
    · cases hok
      have hentry := runs_writeFatEntry (v := v') hw hn 0x0FFFFFFF
      have hzero := runs_writeCluster (v := v'.setFat n (0x0FFFFFFF % 2 ^ 28)) hw hn (length_zeroCluster b)
      refine Meets.of_runs ((Runs.hinted hentry (keeps_writeFatEntry _ _) _).bind
        ((Runs.hinted hzero (keeps_writeCluster _ _) _).bind (Runs.pure n _))) ?_
      exact .inl ⟨n, hn, hle, hfree, rfl, rfl⟩
    · cases habs
  · rintro e ⟨v', h'⟩ ⟨rfl, ⟨n', -, -, -, habs, -⟩ | ⟨herr, rfl, hused⟩⟩
    · cases habs
    · exact .inr ⟨herr, rfl, hused⟩

theorem meets_writerAlloc (v : Vol) :
    Meets (Holds b w₀) (allocCluster b) v fun r v' => Allocates b v r v' ∧ (r = .error .noSpace → True) := by
  refine Meets.of_hinted fun h => (meets_allocCluster_hinted hw v h).mono ?_
  rintro r p (⟨n, hn, -, hfree, hok, rfl⟩ | ⟨herr, rfl, -⟩)
  · exact ⟨.inl ⟨n, hn, hfree, hok, rfl⟩, fun _ => trivial⟩
  · exact ⟨.inr ⟨herr, rfl⟩, fun _ => trivial⟩

end

theorem map_clusterSlots (b : Bpb) (c : Nat) (buf : List UInt8) : (clusterSlots b c buf).map (·.2) = records buf := by
  apply ext_getElem?
  intro i
  rw [clusterSlots, getElem?_map, getElem?_mapIdx, Option.map_map]
  exact Option.map_id_apply

def searched (look : List UInt8 → Option (Except VfsError α)) (absent : α) (rs : List Located) : Except VfsError α :=
  ((rs.map (·.2)).findSome? look).getD (.ok absent)

theorem runs_searchDir {α : Type} (hw : b.WellSized (blocks s₀)) (look : List UInt8 → Option (Except VfsError α))
    (absent : α) (hc : Chained b v.fat c l) :
    Runs (Holds b s₀) (searchDir b look absent c) v (searched look absent (dirSlots b v l)) v := by
  have hclusters : ∀ {l : List Nat}, (∀ x ∈ l, b.IsCluster x) →
      Runs (Holds b s₀) (searchClusters b look absent l) v (searched look absent (dirSlots b v l)) v := by
    intro l hl
    induction l with
    | nil => exact Runs.pure absent v
    | cons c l ih =>
      obtain ⟨hc, hl⟩ := forall_mem_cons.mp hl
      refine (runs_readCluster hw hc).bind ?_
      rw [searched, dirSlots_cons, map_append, findSome?_append, map_clusterSlots]
      cases (records (v.clus c)).findSome? look with
      | none => exact ih hl
      | some r =>
        cases r with
        | ok a => exact Runs.pure a v
        | error e => exact Runs.throw e v
  exact (runs_chain hw hc).bind (hclusters fun x hx => hc.isCluster hx)

end Ruos.Fat.FatWriter
