import Ruos.Fat.Make

/-! When the names of a directory still resolve after something was made in it. -/
namespace Ruos.Fat

open Lib Vfs Block ErrorFree List Option

section

variable [Unicode] {A B S : List Located} {old rec : List UInt8} {loc : Nat × Nat} {p : Option LfnRun}

theorem readSlot_ne_finish (h : firstByte rec ≠ 0) : readSlot p rec ≠ .finish := by
  unfold readSlot
  rw [if_neg h]
  split_ifs <;> simp

omit [Unicode] in
theorem firstByte_ne_zero_of_used (h : isFree rec = false) : firstByte rec ≠ 0 := by
  intro hzero
  simp [isFree, hzero] at h

theorem scan_used (h : ∀ r ∈ A, isFree r.2 = false) (p : Option LfnRun) : ∃ p', (scan p A).2 = some p' := by
  induction A generalizing p with
  | nil => exact ⟨p, rfl⟩
  | cons r A ih =>
    obtain ⟨hr, hA⟩ := forall_mem_cons.mp h
    have hne := readSlot_ne_finish (p := p) (firstByte_ne_zero_of_used hr)
    unfold scan
    cases hslot : readSlot p r.2 with
    | finish => exact absurd hslot hne
    | skip p' => exact ih hA p'
    | entry name => exact ih hA none

def usedPart (S : List Located) : List Located := S.takeWhile fun r => !isFree r.2

def freePart (S : List Located) : List Located := S.dropWhile fun r => !isFree r.2

def pendingAt (S : List Located) : Option LfnRun := (scan none (usedPart S)).2.getD none

/-- The entries that appear when the first free record is the end mark and is overwritten. -/
def hiddenEntries (S : List Located) : List DirEntry :=
  match freePart S with
  | [] => []
  | r :: B => if firstByte r.2 = 0x00 then (scan none B).1 else []

omit [Unicode] in
theorem takeWhile_split (hA : ∀ r ∈ A, isFree r.2 = false) (hfree : isFree old = true) :
    usedPart (A ++ (loc, old) :: B) = A ∧ freePart (A ++ (loc, old) :: B) = (loc, old) :: B := by
  have hall : ∀ r ∈ A, (!isFree r.2) = true := fun r hr => by rw [hA r hr]; rfl
  constructor
  · rw [usedPart, takeWhile_append_of_pos hall, takeWhile_cons_of_neg (by simp [hfree]), append_nil]
  · rw [freePart, dropWhile_append_of_pos hall, dropWhile_cons_of_neg (by simp [hfree])]

omit [Unicode] in
theorem takeWhile_used (hA : ∀ r ∈ A, isFree r.2 = false) : usedPart A = A ∧ freePart A = [] := by
  have hall : ∀ r ∈ A, (!isFree r.2) = true := fun r hr => by rw [hA r hr]; rfl
  exact ⟨takeWhile_eq_self_iff.mpr hall, dropWhile_eq_nil_iff.mpr hall⟩

theorem readSlot_free (hfree : isFree old = true) (p : Option LfnRun) :
    readSlot p old = if firstByte old = 0x00 then .finish else .skip none := by
  unfold readSlot
  by_cases hzero : firstByte old = 0x00
  · rw [if_pos hzero, if_pos hzero]
  · have he5 : firstByte old = 0xE5 := by simpa [isFree, hzero] using hfree
    rw [if_neg hzero, if_neg hzero, if_pos he5]

def tailEntries (slot : Slot) (r : Located) (B : List Located) : List DirEntry :=
  match slot with
  | .finish => []
  | .skip p => (scan p B).1
  | .entry name => entryOf name r :: (scan none B).1

theorem scan_split (hA : ∀ r ∈ A, isFree r.2 = false) (r : Located) : (scan none (A ++ r :: B)).1 =
      (scan none A).1 ++ tailEntries (readSlot ((scan none A).2.getD none) r.2) r B := by
  obtain ⟨p, hp⟩ := scan_used hA none
  rw [scan_append, hp, elim_some, getD_some, scan]
  cases readSlot p r.2 <;> rfl

theorem listing_insert {S' : List Located}
    (h : (∃ A old B, S = A ++ (loc, old) :: B ∧ isFree old = true ∧ S' = A ++ (loc, rec) :: B ∧
        ∀ r ∈ A, isFree r.2 = false) ∨
      (∃ Z, S' = S ++ (loc, rec) :: Z ∧ (∀ r ∈ S, isFree r.2 = false) ∧ ∀ r ∈ Z, r.2 = replicate 32 0)) :
    ∃ E kept B, (scan none S).1 = E ++ kept ∧ (scan none B).1 = kept ++ hiddenEntries S ∧
      S' = usedPart S ++ (loc, rec) :: B ∧ (scan none S').1 = E ++ tailEntries (readSlot (pendingAt S) rec) (loc, rec) B := by
  rcases h with ⟨A, old, B, rfl, hfree, rfl, hA⟩ | ⟨Z, rfl, hA, hZ⟩
  · obtain ⟨hused, hrest⟩ : usedPart (A ++ (loc, old) :: B) = A ∧ freePart (A ++ (loc, old) :: B) = (loc, old) :: B :=
      takeWhile_split hA hfree
    have hold := scan_split (B := B) hA (loc, old)
    have hnew := scan_split (B := B) hA (loc, rec)
    rw [pendingAt, hiddenEntries, hused, hrest]
    dsimp only
    rw [readSlot_free hfree] at hold
    by_cases hzero : firstByte old = 0x00
    · rw [if_pos hzero] at hold ⊢
      exact ⟨_, [], B, hold, rfl, rfl, hnew⟩
    · rw [if_neg hzero] at hold ⊢
      exact ⟨_, (scan none B).1, B, hold, (append_nil _).symm, rfl, hnew⟩
  · obtain ⟨hused, hrest⟩ := takeWhile_used hA
    have hnew := scan_split (B := Z) hA (loc, rec)
    rw [pendingAt, hiddenEntries, hused, hrest]
    exact ⟨_, [], Z, (append_nil _).symm, scan_zeros hZ, rfl, hnew⟩

variable {e : DirEntry}

/-- Where an entry of a listing comes from. -/
theorem exists_slot_of_mem_scan (h : e ∈ (scan p S).1) :
    ∃ p', ∃ r ∈ S, readSlot p' r.2 = .entry e.name ∧ e = entryOf e.name r := by
  induction S generalizing p with
  | nil => cases h
  | cons r S ih =>
    have hrest : ∀ {p'}, e ∈ (scan p' S).1 →
        ∃ p', ∃ r' ∈ r :: S, readSlot p' r'.2 = .entry e.name ∧ e = entryOf e.name r' := fun h => by
      obtain ⟨p', r', hr', he⟩ := ih h
      exact ⟨p', r', mem_cons_of_mem _ hr', he⟩
    unfold scan at h
    cases hslot : readSlot p r.2 with
    | finish =>
      rw [hslot] at h
      cases h
    | skip p' =>
      rw [hslot] at h
      exact hrest h
    | entry name =>
      rw [hslot] at h
      rcases mem_cons.mp h with rfl | h
      · exact ⟨p, r, mem_cons_self, hslot, rfl⟩
      · exact hrest h

theorem mem_scan (h : e ∈ (scan p S).1) : ∃ r ∈ S, e = entryOf e.name r := by
  obtain ⟨-, r, hr, -, he⟩ := exists_slot_of_mem_scan h
  exact ⟨r, hr, he⟩

theorem name_lower_of_mem_scan (h : e ∈ (scan p S).1) : toAsciiLowercase e.name = e.name := by
  obtain ⟨p', r, -, hslot, -⟩ := exists_slot_of_mem_scan h
  unfold readSlot at hslot
  split_ifs at hslot
  rw [← Slot.entry.inj hslot]
  exact slotName_lower p' r.2

end

section

variable {b : Bpb} {v : Vol} {c c' i j : Nat} {l : List Nat}

theorem recordLoc_addr (b : Bpb) (c i : Nat) :
    512 * (recordLoc b c i).1 + (recordLoc b c i).2 = b.clusterAddr c + 32 * i := by
  simp only [recordLoc, Bpb.clusterAddr]
  omega

theorem recordLoc_inj (hc : b.IsCluster c) (hc' : b.IsCluster c') (hi : i < b.clusterBytes / 32)
    (hj : j < b.clusterBytes / 32) (h : recordLoc b c i = recordLoc b c' j) : c = c' ∧ i = j := by
  have haddr := recordLoc_addr b c i
  rw [h, recordLoc_addr] at haddr
  by_cases hne : c = c'
  · subst hne
    exact ⟨rfl, by omega⟩
  · rcases Bpb.clusterAddr_disjoint hc hc' hne with hlt | hlt <;> omega

theorem locs_clusterSlots (b : Bpb) (c : Nat) (buf : List UInt8) :
    (clusterSlots b c buf).map Prod.fst = (range (buf.length / 32)).map (recordLoc b c) := by
  apply ext_getElem?
  intro k
  rw [getElem?_map, clusterSlots, getElem?_mapIdx, records, getElem?_pieces, getElem?_map]
  by_cases hk : k < buf.length / 32
  · rw [if_pos hk, getElem?_range hk]
    rfl
  · rw [if_neg hk, getElem?_eq_none (by rw [length_range]; omega)]
    rfl

theorem locs_nodup (hsized : Sized b v) (hl : ∀ x ∈ l, b.IsCluster x) (hnodup : l.Nodup) :
    ((dirSlots b v l).map Prod.fst).Nodup := by
  rw [dirSlots, map_flatMap]
  refine nodup_flatMap.mpr ⟨fun c hc => ?_, ?_⟩
  · rw [locs_clusterSlots, hsized c (hl c hc)]
    refine List.Nodup.map_on (fun i hi j hj heq => ?_) nodup_range
    exact (recordLoc_inj (hl c hc) (hl c hc) (mem_range.mp hi) (mem_range.mp hj) heq).2
  · refine List.Pairwise.imp_of_mem (fun {c c'} hc hc' hne => ?_) hnodup
    intro loc hloc hloc'
    dsimp only at hloc hloc'
    rw [locs_clusterSlots, hsized c (hl c hc)] at hloc
    rw [locs_clusterSlots, hsized c' (hl c' hc')] at hloc'
    obtain ⟨i, hi, rfl⟩ := mem_map.mp hloc
    obtain ⟨j, hj, heq⟩ := mem_map.mp hloc'
    exact hne (recordLoc_inj (hl c hc) (hl c' hc') (mem_range.mp hi) (mem_range.mp hj) heq.symm).1

end

section

theorem findName_append (xs ys : List DirEntry) (q : Name) :
    findName (xs ++ ys) q = (findName xs q).or (findName ys q) := find?_append

theorem findName_eq_none {xs : List DirEntry} {q : Name} :
    findName xs q = none ↔ ∀ e ∈ xs, e.name ≠ toAsciiLowercase q := by
  simp [findName]

theorem name_of_findName {xs : List DirEntry} {q : Name} {e : DirEntry} (h : findName xs q = some e) :
    e ∈ xs ∧ e.name = toAsciiLowercase q :=
  ⟨mem_of_find?_eq_some h, by simpa using find?_some h⟩

variable [Unicode]

/-- The name that the record of a new file will be read back with is the one it was given. -/
def ReadsBack (p : Option LfnRun) (name : Name) : Prop :=
  firstByte (encodeShortName name) ≠ 0x00 ∧ firstByte (encodeShortName name) ≠ 0xE5 ∧ toAsciiLowercase name ≠ [] ∧
    slotName p (encodeShortName name) = toAsciiLowercase name

/-- A name that can be added to a directory with the records `S` without losing or changing another name:
its record reads back, and no entry with a new name appears behind the old end of the directory. -/
structure Storable (S : List Located) (name : Name) : Prop where
  reads_back : ReadsBack (pendingAt S) name
  hidden : ∀ e ∈ hiddenEntries S, e.name = toAsciiLowercase name ∨ ∃ e' ∈ (scan none S).1, e'.name = e.name

theorem readSlot_newRecord {p : Option LfnRun} {name : Name} (isDir : Bool) (n : Nat) :
    readSlot p (newRecord name isDir n) = .entry (toAsciiLowercase name) ↔ ReadsBack p name := by
  rw [newRecord, readSlot_dirRecord p (length_encodeShortName name) isDir n 0]
  unfold ReadsBack
  split_ifs with hzero he5 hnil
  · simp [hzero]
  · simp [he5]
  · constructor
    · intro h
      cases h
    · rintro ⟨-, -, hne, heq⟩
      rw [← heq] at hne
      exact absurd hnil hne
  · constructor
    · intro h
      have heq := Slot.entry.inj h
      exact ⟨hzero, he5, heq ▸ hnil, heq⟩
    · rintro ⟨-, -, -, heq⟩
      rw [heq]

variable {S S' : List Located} {name : Name} {isDir : Bool} {n : Nat} {loc : Nat × Nat}

/-- `S'` are the records of a directory after a record was added to the records `S`. -/
def Inserted (S : List Located) (loc : Nat × Nat) (rec : List UInt8) (S' : List Located) : Prop :=
  (∃ A old B, S = A ++ (loc, old) :: B ∧ isFree old = true ∧ S' = A ++ (loc, rec) :: B ∧ ∀ r ∈ A, isFree r.2 = false) ∨
    (∃ Z, S' = S ++ (loc, rec) :: Z ∧ (∀ r ∈ S, isFree r.2 = false) ∧ ∀ r ∈ Z, r.2 = List.replicate 32 0)

omit [Unicode] in
theorem entryOf_newRecord (hn : n < 2 ^ 32) :
    entryOf (toAsciiLowercase name) (loc, newRecord name isDir n) = newEntry name isDir n loc :=
  entryOf_dirRecord (length_encodeShortName name) isDir hn _ loc

section

variable (h : Inserted S loc (newRecord name isDir n) S')
include h

theorem Inserted.listing (hn : n < 2 ^ 32) (hback : ReadsBack (pendingAt S) name) :
    ∃ E kept, (scan none S).1 = E ++ kept ∧
      (scan none S').1 = E ++ newEntry name isDir n loc :: (kept ++ hiddenEntries S) := by
  obtain ⟨E, kept, B, hold, hB, -, hnew⟩ := listing_insert h
  refine ⟨E, kept, hold, ?_⟩
  rw [hnew, (readSlot_newRecord isDir n).mpr hback, tailEntries, entryOf_newRecord hn, hB]

theorem Inserted.finds_iff (hn : n < 2 ^ 32) (hfresh : findName (scan none S).1 name = none)
    (hnodup : (S'.map Prod.fst).Nodup) :
    findName (scan none S').1 name = some (newEntry name isDir n loc) ↔ ReadsBack (pendingAt S) name := by
  constructor
  · intro hfind
    obtain ⟨E, kept, B, hold, hB, hS', hnew⟩ := listing_insert h
    obtain ⟨hmem, -⟩ := name_of_findName hfind
    rw [hold, findName_append, or_eq_none_iff] at hfresh
    rw [← readSlot_newRecord isDir n]
    have hlocB : ∀ p, newEntry name isDir n loc ∉ (scan p B).1 := by
      intro p hin
      obtain ⟨r, hr, heq⟩ := mem_scan hin
      have hloc : r.1 = loc := by
        have hsec := congrArg DirEntry.recSec heq
        have hoff := congrArg DirEntry.recOff heq
        exact Prod.ext hsec.symm hoff.symm
      rw [hS', map_append] at hnodup
      have hcons := (nodup_append.mp hnodup).2.1
      exact (nodup_cons.mp hcons).1 (mem_map.mpr ⟨r, hr, hloc⟩)
    rw [hnew] at hmem
    rcases mem_append.mp hmem with hE | htail
    · exact absurd rfl (findName_eq_none.mp hfresh.1 _ hE)
    · cases hslot : readSlot (pendingAt S) (newRecord name isDir n) with
      | finish =>
        rw [hslot] at htail
        cases htail
      | skip p =>
        rw [hslot] at htail
        exact absurd htail (hlocB p)
      | entry nm =>
        rw [hslot] at htail
        rcases mem_cons.mp htail with heq | htail
        · have hname : toAsciiLowercase name = nm := congrArg DirEntry.name heq
          rw [hname]
        · exact absurd htail (hlocB none)
  · intro hback
    obtain ⟨E, kept, hold, hnew⟩ := h.listing hn hback
    rw [hold, findName_append, or_eq_none_iff] at hfresh
    rw [hnew, findName_append, hfresh.1, none_or]
    exact find?_cons_of_pos (by simp [newEntry])

theorem Inserted.others_iff (hn : n < 2 ^ 32) (hback : ReadsBack (pendingAt S) name) :
    (∀ q, toAsciiLowercase q ≠ toAsciiLowercase name → findName (scan none S').1 q = findName (scan none S).1 q) ↔
      ∀ e ∈ hiddenEntries S, e.name = toAsciiLowercase name ∨ ∃ e' ∈ (scan none S).1, e'.name = e.name := by
  obtain ⟨E, kept, hold, hnew⟩ := h.listing hn hback
  have hother : ∀ q, toAsciiLowercase q ≠ toAsciiLowercase name →
      findName (scan none S').1 q = (findName (scan none S).1 q).or (findName (hiddenEntries S) q) := by
    intro q hq
    have hskip : findName (newEntry name isDir n loc :: (kept ++ hiddenEntries S)) q =
        findName (kept ++ hiddenEntries S) q :=
      find?_cons_of_neg (by simp [newEntry, hq.symm])
    rw [hnew, hold, findName_append, hskip, findName_append, findName_append, Option.or_assoc]
  constructor
  · intro hsame e he
    by_cases hwant : e.name = toAsciiLowercase name
    · exact Or.inl hwant
    · right
      have hlower : toAsciiLowercase e.name = e.name := by
        unfold hiddenEntries at he
        split at he
        · cases he
        · split_ifs at he
          · exact name_lower_of_mem_scan he
          · cases he
      have heq := (hother e.name (by rwa [hlower])).symm.trans (hsame e.name (by rwa [hlower]))
      cases hfind : findName (scan none S).1 e.name with
      | some e' =>
        obtain ⟨hmem, hname⟩ := name_of_findName hfind
        exact ⟨e', hmem, hname.trans hlower⟩
      | none =>
        rw [hfind] at heq
        exact absurd hlower.symm (findName_eq_none.mp heq e he)
  · intro hhidden q hq
    rw [hother q hq]
    cases hfind : findName (scan none S).1 q with
    | some e => rfl
    | none =>
      rw [none_or, findName_eq_none]
      intro e he hname
      rcases hhidden e he with hwant | ⟨e', he', hsame⟩
      · exact hq (hname.symm.trans hwant)
      · exact findName_eq_none.mp hfind e' he' (hsame.trans hname)

end

end
end Ruos.Fat
