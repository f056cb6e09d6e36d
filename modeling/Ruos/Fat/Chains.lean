import Ruos.Fat.Access

/-! What `chain` returns on a FAT of any content. -/
namespace Ruos.Fat

open Lib Vfs Block ErrorFree List Runs

section

variable (b : Bpb) (m : Mem)

/-- The number that the FAT entry of `n` holds. -/
def linkAt (n : Nat) : Nat := leVal (m.read (b.fatAddr n) 4) % 2 ^ 28

def IsEnd (n : Nat) : Prop := eoc ≤ n % 2 ^ 28

instance (n : Nat) : Decidable (IsEnd n) := inferInstanceAs (Decidable (_ ≤ _))

/-- The clusters of the volume that are met along the links from `c`, up to an end-of-chain mark. -/
def Follows : Nat → List Nat → Prop
  | c, [] => IsEnd c
  | c, x :: l => c = x ∧ b.IsCluster c ∧ ¬ IsEnd c ∧ Follows (linkAt b m c) l

/-- All numbers that `chain` takes from `c` on: those from 2 on that are no end-of-chain marks. Their entries are not
free and lie on the device, which has so many blocks. -/
structure Takes (blocks c : Nat) (l : List Nat) : Prop where
  walk : Walk (onChain · = true) (linkAt b m) c l
  linked : ∀ x ∈ l, linkAt b m x ≠ 0 ∧ (b.fatEntryLoc x).1 < blocks

/-- The result of the walk from `cur` on, when `left` more clusters may be taken. -/
def walkFat (blocks : Nat) : (left cur : Nat) → Except VfsError (List Nat)
  | 0, cur => if onChain cur then .error .ioError else .ok []
  | left + 1, cur =>
    if onChain cur then
      if blocks ≤ (b.fatEntryLoc cur).1 then .error .ioError
      else if linkAt b m cur = 0 then .error .ioError
      else (walkFat blocks left (linkAt b m cur)).map (cur :: ·)
    else .ok []

variable {b m} {blocks c left : Nat} {l : List Nat}

theorem Takes.cons (hc : onChain c = true) (hlink : linkAt b m c ≠ 0) (hsec : (b.fatEntryLoc c).1 < blocks) :
    Takes b m blocks c (c :: l) ↔ Takes b m blocks (linkAt b m c) l := by
  constructor
  · intro h
    exact ⟨h.walk.2.2, fun x hx => h.linked x (mem_cons_of_mem c hx)⟩
  · intro h
    refine ⟨⟨rfl, hc, h.walk⟩, fun x hx => ?_⟩
    rcases mem_cons.mp hx with rfl | hx
    · exact ⟨hlink, hsec⟩
    · exact h.linked x hx

theorem walkFat_error (hc : onChain c = true) (hbad : blocks ≤ (b.fatEntryLoc c).1 ∨ linkAt b m c = 0) :
    walkFat b m blocks (left + 1) c = .error .ioError := by
  rw [walkFat, if_pos hc]
  rcases hbad with h | h
  · rw [if_pos h]
  · rw [if_pos h, ite_self]

theorem walkFat_eq_ok_iff : walkFat b m blocks left c = .ok l ↔ Takes b m blocks c l ∧ l.length ≤ left := by
  induction left generalizing c l with
  | zero =>
    rw [walkFat]
    by_cases hc : onChain c = true
    · rw [if_pos hc]
      constructor
      · intro h
        cases h
      · rintro ⟨h, hlen⟩
        obtain rfl := length_eq_zero_iff.mp (Nat.le_zero.mp hlen)
        exact absurd hc h.walk
    · rw [if_neg hc]
      constructor
      · intro h
        cases h
        exact ⟨⟨hc, fun x hx => nomatch hx⟩, Nat.le_refl 0⟩
      · rintro ⟨-, hlen⟩
        rw [length_eq_zero_iff.mp (Nat.le_zero.mp hlen)]
  | succ left ih =>
    by_cases hc : onChain c = true
    · by_cases hbad : blocks ≤ (b.fatEntryLoc c).1 ∨ linkAt b m c = 0
      · rw [walkFat_error hc hbad]
        constructor
        · intro h
          cases h
        · rintro ⟨h, -⟩
          have hmem := h.linked c (h.walk.head_mem hc)
          omega
      · have hlink : linkAt b m c ≠ 0 := fun h => hbad (.inr h)
        have hsec : (b.fatEntryLoc c).1 < blocks := by omega
        rw [walkFat, if_pos hc, if_neg (by omega), if_neg hlink]
        cases l with
        | nil =>
          constructor
          · intro h
            cases hrest : walkFat b m blocks left (linkAt b m c) <;> simp [hrest, Except.map] at h
          · rintro ⟨h, -⟩
            exact absurd hc h.walk
        | cons x l =>
          constructor
          · intro h
            cases hrest : walkFat b m blocks left (linkAt b m c) with
            | error e => simp [hrest, Except.map] at h
            | ok rest =>
              rw [hrest] at h
              obtain ⟨rfl, rfl⟩ := cons.inj (Except.ok.inj h)
              obtain ⟨htakes, hlen⟩ := ih.mp hrest
              exact ⟨(Takes.cons hc hlink hsec).mpr htakes, by simpa using hlen⟩
          · rintro ⟨h, hlen⟩
            obtain rfl := h.walk.1
            rw [ih.mpr ⟨(Takes.cons hc hlink hsec).mp h, by simpa using hlen⟩]
            rfl
    · rw [walkFat, if_neg hc]
      constructor
      · intro h
        cases h
        exact ⟨⟨hc, fun x hx => nomatch hx⟩, Nat.zero_le _⟩
      · rintro ⟨h, -⟩
        cases l with
        | nil => rfl
        | cons x l => exact absurd h.walk.2.1 hc

/-- A FAT that a walk from `c` on stays inside: an entry that is not free refers to a cluster of the volume or ends its
chain. -/
structure SoundFat (b : Bpb) (m : Mem) (blocks c : Nat) : Prop where
  start : IsEnd c ∨ b.IsCluster c
  link : ∀ n, b.IsCluster n → linkAt b m n ≠ 0 → IsEnd (linkAt b m n) ∨ b.IsCluster (linkAt b m n)
  readable : ∀ n, b.IsCluster n → (b.fatEntryLoc n).1 < blocks

theorem onChain_eq_false_of_isEnd (h : IsEnd c) : ¬ onChain c = true := by
  rw [onChain_iff]
  unfold IsEnd at h
  omega

theorem onChain_of_not_isEnd (hc : b.IsCluster c) (h : ¬ IsEnd c) : onChain c = true := by
  apply onChain_iff.mpr
  constructor
  · exact hc.1
  · unfold IsEnd at h
    omega

theorem Follows.link_ne_zero (h : Follows b m (linkAt b m c) l) : linkAt b m c ≠ 0 := by
  intro hzero
  rw [hzero] at h
  cases l with
  | nil =>
    have hend : ¬ IsEnd 0 := by decide
    exact hend h
  | cons x l => exact absurd h.2.1.1 (by decide)

theorem Follows.isCluster (h : Follows b m c l) {x : Nat} (hx : x ∈ l) : b.IsCluster x := by
  induction l generalizing c with
  | nil => cases hx
  | cons y l ih =>
    rcases mem_cons.mp hx with rfl | hx
    · exact h.1 ▸ h.2.1
    · exact ih h.2.2.2 hx

theorem Follows.takes (h : Follows b m c l) (hread : ∀ n, b.IsCluster n → (b.fatEntryLoc n).1 < blocks) :
    Takes b m blocks c l := by
  induction l generalizing c with
  | nil => exact ⟨onChain_eq_false_of_isEnd h, fun x hx => nomatch hx⟩
  | cons x l ih =>
    obtain ⟨rfl, hcl, hlive, hrest⟩ := h
    apply (Takes.cons (onChain_of_not_isEnd hcl hlive) hrest.link_ne_zero (hread c hcl)).mpr
    exact ih hrest

theorem Takes.follows (h : Takes b m blocks c l) (hs : SoundFat b m blocks c) : Follows b m c l := by
  induction l generalizing c with
  | nil =>
    rcases hs.start with hend | hcl
    · exact hend
    · by_contra hlive
      exact h.walk (onChain_of_not_isEnd hcl hlive)
  | cons x l ih =>
    obtain ⟨rfl, hc, -⟩ := h.walk
    have hlive : ¬ IsEnd c := fun hend => onChain_eq_false_of_isEnd hend hc
    have hcl : b.IsCluster c := hs.start.resolve_left hlive
    obtain ⟨hlink, hsec⟩ := h.linked c mem_cons_self
    have hrest := (Takes.cons hc hlink hsec).mp h
    exact ⟨rfl, hcl, hlive, ih hrest { hs with start := hs.link c hcl hlink }⟩

theorem Follows.length_le (h : Follows b m c l) (hnodup : l.Nodup) : l.length ≤ b.maxCluster := by
  have hsub : l ⊆ range b.maxCluster := fun x hx => mem_range.mpr (h.isCluster hx).2
  have hle := (hnodup.subperm hsub).length_le
  rwa [length_range] at hle

end

variable {S : Type} [BlockDevice S]

/-- The loop of `chain`, which tests the length of its output on each turn; `none` when the fuel does not suffice. -/
def chainLoop (b : Bpb) : (fuel cur : Nat) → (out : List Nat) → (cached : Option (Nat × List UInt8)) →
    FatM S (Option (List Nat))
  | 0, _, _, _ => pure none
  | fuel + 1, cur, out, cached =>
    if onChain cur then
      if b.maxCluster ≤ out.length then throw .ioError
      else do
        let buf ← cachedSector cached (b.fatEntryLoc cur).1
        failIf (fatEntry buf (b.fatEntryLoc cur).2 = 0) .ioError
        chainLoop b fuel (fatEntry buf (b.fatEntryLoc cur).2) (out ++ [cur]) (some ((b.fatEntryLoc cur).1, buf))
    else pure (some out)

theorem chainLoop_eq (b : Bpb) {left fuel cur : Nat} {out : List Nat} {cached : Option (Nat × List UInt8)}
    (hleft : left + out.length = b.maxCluster) (hfuel : left < fuel) :
    (chainLoop b fuel cur out cached : FatM S _) = (fun l => some (out ++ l)) <$> chainFrom b left cur cached := by
  induction left generalizing fuel cur out cached with
  | zero =>
    obtain ⟨fuel, rfl⟩ := Nat.exists_eq_add_one_of_ne_zero (Nat.ne_of_gt hfuel)
    rw [chainLoop, chainFrom]
    by_cases hc : onChain cur = true
    · rw [if_pos hc, if_pos hc, if_pos (by omega)]
      rfl
    · rw [if_neg hc, if_neg hc, map_pure, append_nil]
  | succ left ih =>
    obtain ⟨fuel, rfl⟩ := Nat.exists_eq_add_one_of_ne_zero (by omega : fuel ≠ 0)
    rw [chainLoop, chainFrom]
    by_cases hc : onChain cur = true
    · rw [if_pos hc, if_pos hc, if_neg (by omega)]
      simp only [map_bind, map_pure]
      congr 1
      funext buf
      congr 1
      funext _
      rw [ih (by simp only [length_append, length_singleton]; omega) (by omega)]
      simp
    · rw [if_neg hc, if_neg hc, map_pure, append_nil]

variable [ErrorFree S] {b : Bpb} {m : Mem} {s₀ : S}

theorem runs_readSector_error {k : Nat} (h : blocks s₀ ≤ k) : Runs (Stored s₀) (readSector k) m (.error .ioError) m :=
  runs_read_error Nat.one_pos (by omega)

theorem runs_chainFrom_walkFat {left c : Nat} {cached : Option (Nat × List UInt8)} (hcached : Cached m cached)
    (hin : ∀ p ∈ cached, p.1 < blocks s₀) :
    Runs (Stored s₀) (chainFrom b left c cached) m (walkFat b m (blocks s₀) left c) m := by
  induction left generalizing c cached with
  | zero =>
    rw [chainFrom, walkFat]
    split_ifs
    · exact throw _ m
    · exact pure _ m
  | succ left ih =>
    rw [chainFrom, walkFat]
    by_cases hc : onChain c = true
    · rw [if_pos hc, if_pos hc]
      by_cases hsec : blocks s₀ ≤ (b.fatEntryLoc c).1
      · have hmiss : (cachedSector cached (b.fatEntryLoc c).1 : FatM S _) = readSector (b.fatEntryLoc c).1 := by
          cases cached with
          | none => rfl
          | some p =>
            have hlt := hin p rfl
            exact if_neg (by omega)
        rw [if_pos hsec, hmiss]
        exact (runs_readSector_error hsec).bind_error
      · rw [if_neg hsec]
        apply (runs_cachedSector hcached (by omega)).bind
        rw [fatEntry_read]
        by_cases hzero : linkAt b m c = 0
        · rw [if_pos hzero]
          exact (failIf_true hzero _ m).bind_error
        · rw [if_neg hzero]
          apply (failIf_false hzero _ m).bind
          have hrest := @ih (linkAt b m c) _ (cached_read m (b.fatEntryLoc c).1) (by simp; omega)
          cases hwalk : walkFat b m (blocks s₀) left (linkAt b m c) with
          | error e =>
            rw [hwalk] at hrest
            exact hrest.bind_error
          | ok l =>
            rw [hwalk] at hrest
            exact hrest.bind (pure _ m)
    · rw [if_neg hc, if_neg hc]
      exact pure _ m

theorem chain_eq_ok_iff (b : Bpb) (start : Nat) (d : S) (l : List Nat) :
    (reply (chain b start) d).1 = .ok l ↔ Takes b (mem d) (blocks d) start l ∧ l.length ≤ b.maxCluster := by
  have hruns : Runs (Stored d) (chain b start) (mem d) (walkFat b (mem d) (blocks d) b.maxCluster start) (mem d) :=
    runs_chainFrom_walkFat (fun p hp => nomatch hp) (fun p hp => nomatch hp)
  obtain ⟨d', hrun, -⟩ := hruns d (stored_self d)
  rw [reply_eq hrun]
  exact walkFat_eq_ok_iff

/-- `chain` takes at most `maxCluster` numbers. It succeeds exactly when so many lead from `start`, along entries that
are not free, to a number below 2 or an end-of-chain mark, and returns these, each once. On a sound FAT they are the
clusters of the volume that are met before an end-of-chain mark. -/
theorem chain_takes_links (b : Bpb) (start : Nat) (d : S) :
    (∀ fuel, b.maxCluster < fuel → (chainLoop b fuel start [] none : FatM S _) = some <$> chain b start) ∧
    (∀ l, (reply (chain b start) d).1 = .ok l ↔ Takes b (mem d) (blocks d) start l ∧ l.length ≤ b.maxCluster) ∧
    (∀ l, (reply (chain b start) d).1 = .ok l → l.Nodup ∧ ∀ x ∈ l, 2 ≤ x) ∧
    (SoundFat b (mem d) (blocks d) start → ∀ l, ((reply (chain b start) d).1 = .ok l ↔ Follows b (mem d) start l) ∧
      ((reply (chain b start) d).1 = .ok l → ∀ x ∈ l, x < b.maxCluster)) := by
  refine ⟨fun fuel hfuel => ?_, chain_eq_ok_iff b start d, fun l hl => ?_, fun hs l => ?_⟩
  · exact chainLoop_eq b (Nat.add_zero _) hfuel
  · obtain ⟨htakes, -⟩ := (chain_eq_ok_iff b start d l).mp hl
    exact ⟨htakes.walk.nodup, fun x hx => (onChain_iff.mp (htakes.walk.live_of_mem hx)).1⟩
  · have hiff : (reply (chain b start) d).1 = .ok l ↔ Follows b (mem d) start l := by
      rw [chain_eq_ok_iff]
      constructor
      · exact fun h => h.1.follows hs
      · intro h
        have htakes := h.takes hs.readable
        exact ⟨htakes, h.length_le htakes.walk.nodup⟩
    exact ⟨hiff, fun hl x hx => ((hiff.mp hl).isCluster hx).2⟩

/-- A volume of 91 clusters with one FAT of eight sectors and the given entries. -/
def linkedDisk (entries : List (Nat × Nat)) : MemDisk where
  count := 100
  count_lt := by decide
  bytes :=
    let boot := ((((((Mem.write (fun _ => 0) 510 (leBytes 2 0xAA55)).write 0x0B (leBytes 2 512)).write 0x0D [1]).write
      0x0E (leBytes 2 1)).write 0x10 [1]).write 0x20 (leBytes 4 100)).write 0x24 (leBytes 4 8)
    entries.foldl (fun m e => m.write (512 + 4 * e.1) (leBytes 4 e.2)) boot

def linkedBpb : Bpb where
  bytesPerSec := 512
  secPerCluster := 1
  rsvdSecCnt := 1
  numFats := 1
  fatSz32 := 8
  rootClus := 0
  totSec32 := 100

theorem chain_takes_two_clusters : Follows linkedBpb (mem (linkedDisk [(2, 7), (7, 0x0FFFFFFF)])) 2 [2, 7] ∧
    (reply (chain linkedBpb 2) (linkedDisk [(2, 7), (7, 0x0FFFFFFF)])).1 = .ok [2, 7] := by
  have hsound : SoundFat linkedBpb (mem (linkedDisk [(2, 7), (7, 0x0FFFFFFF)])) 100 2 := by
    have hlink : ∀ n < 93, 2 ≤ n → let x := linkAt linkedBpb (mem (linkedDisk [(2, 7), (7, 0x0FFFFFFF)])) n
        x ≠ 0 → IsEnd x ∨ linkedBpb.IsCluster x := by
      decide +kernel
    constructor
    · right
      constructor <;> decide
    · exact fun n hn => hlink n hn.2 hn.1
    · intro n hn
      have hlt : n < 93 := hn.2
      simp only [Bpb.fatEntryLoc, linkedBpb]
      omega
  have hiff := ((chain_takes_links linkedBpb 2 (linkedDisk [(2, 7), (7, 0x0FFFFFFF)])).2.2.2 hsound [2, 7]).1
  have hchain : (reply (chain linkedBpb 2) (linkedDisk [(2, 7), (7, 0x0FFFFFFF)])).1 = .ok [2, 7] := by
    decide +kernel
  exact ⟨hiff.mp hchain, hchain⟩

/-- An entry that refers outside the volume is followed, and a link to 1 ends a chain like an end-of-chain mark. -/
theorem chain_leaves_volume : Bpb.parse ((mem (linkedDisk [(2, 1000), (1000, 1)])).read 0 512) = .ok linkedBpb ∧
    (reply (chain linkedBpb 2) (linkedDisk [(2, 1000), (1000, 1)])).1 = .ok [2, 1000] ∧ linkedBpb.maxCluster = 93 ∧
    linkAt linkedBpb (mem (linkedDisk [(2, 1000), (1000, 1)])) 1000 = 1 ∧ ¬ IsEnd 1 := by
  decide +kernel

end Ruos.Fat
