import Ruos.Fat.Insert

/-! The fields of the records that the driver writes, the letter case of names, and making files and directories. -/
namespace Ruos.Fat

open Lib Vfs List

theorem toNat_toLower (c : Char) : c.toLower.toNat = if 65 ≤ c.toNat ∧ c.toNat ≤ 90 then c.toNat + 32 else c.toNat := by
  have hval : c.val.toNat = c.toNat := rfl
  have hiff : (c.val ≥ 'A'.val ∧ c.val ≤ 'Z'.val) ↔ (65 ≤ c.toNat ∧ c.toNat ≤ 90) := by
    rfl
  unfold Char.toLower
  by_cases h : c.val ≥ 'A'.val ∧ c.val ≤ 'Z'.val
  · have hbound := hiff.mp h
    rw [dif_pos h, if_pos hbound]
    change (c.val + ('a'.val - 'A'.val)).toNat = c.toNat + 32
    have hsub : ('a'.val - 'A'.val).toNat = 32 := by decide
    rw [UInt32.toNat_add, hsub, hval, Nat.mod_eq_of_lt (by omega)]
  · rw [dif_neg h, if_neg (fun hb => h (hiff.mpr hb))]

theorem char_eq_of_toNat {c d : Char} (h : c.toNat = d.toNat) : c = d := Char.ext (UInt32.toNat_inj.mp h)

@[simp] theorem toLower_toLower (c : Char) : c.toLower.toLower = c.toLower := by
  apply char_eq_of_toNat
  rw [toNat_toLower c.toLower, toNat_toLower]
  split_ifs <;> omega

@[reducible] def Unicode.ascii : Unicode where
  toLowercase c := [c.toLower]
  toLowercase_ascii _ _ := rfl
  toLowercase_lower c x hx := by
    rw [List.mem_singleton.mp hx, toLower_toLower]

theorem toLower_lowerByte (x : UInt8) : (lowerByte x).toLower = lowerByte x := toLower_toLower _

theorem decodeShortName_lower (raw : List UInt8) : toAsciiLowercase (decodeShortName raw) = decodeShortName raw := by
  have hdot : ('.').toLower = '.' := by decide
  unfold decodeShortName
  split_ifs
  · rfl
  · dsimp only
    split_ifs <;> simp only [toAsciiLowercase, map_append, map_map, map_cons, map_nil,
      Function.comp_def, toLower_lowerByte, hdot]

theorem decodeLongName_lower [Unicode] (units : List Nat) :
    toAsciiLowercase (decodeLongName units) = decodeLongName units := by
  refine (map_congr_left fun x hx => ?_).trans (map_id _)
  obtain ⟨u, -, hu⟩ := mem_flatMap.mp hx
  exact Unicode.toLowercase_lower _ x hu

theorem slotName_lower [Unicode] (p : Option LfnRun) (rec : List UInt8) :
    toAsciiLowercase (slotName p rec) = slotName p rec := by
  unfold slotName
  cases p with
  | none => exact decodeShortName_lower _
  | some run =>
    dsimp only
    split_ifs
    · exact decodeLongName_lower _
    · exact decodeShortName_lower _

theorem length_encodeShortName (name : Name) : (encodeShortName name).length = 11 := by
  unfold encodeShortName
  rw [length_fill, length_replicate]
  intro f hf
  simp only [mem_cons, not_mem_nil, or_false] at hf
  rcases hf with rfl | rfl <;> simp only [length_take, length_replicate] <;> omega

theorem field_lt (sec : List UInt8) (off w : Nat) : field sec off w < 256 ^ w := by
  have hlen : (slice sec off w).length ≤ w := length_take_le _ _
  exact Nat.lt_of_lt_of_le (leVal_lt _) (Nat.pow_le_pow_right (by decide) hlen)

section

variable {name : List UInt8} {attr : UInt8} {cluster size : Nat} (hname : name.length = 11)
include hname

theorem dirRecord_ordered : Ordered (replicate 32 (0 : UInt8)).length
    [(0, name), (11, [attr]), (20, leBytes 2 (cluster / 65536)), (26, leBytes 2 cluster), (28, leBytes 4 size)] := by
  refine (ordered_of_inOrder (a := 0) ?_).1
  simp only [map_cons, map_nil, length_leBytes, hname, length_replicate, length_cons,
    length_nil]
  decide

theorem length_dirRecord : (dirRecord name attr cluster size).length = 32 := by
  rw [dirRecord, length_fill (dirRecord_ordered hname).1, length_replicate]

theorem slice_dirRecord : slice (dirRecord name attr cluster size) 0 11 = name :=
  slice_fill_mem (dirRecord_ordered hname) (by simp) hname

theorem firstByte_dirRecord : firstByte (dirRecord name attr cluster size) = firstByte name := by
  have hslice : slice (dirRecord name attr cluster size) 0 11 = name := slice_dirRecord hname
  have hhead : ∀ l : List UInt8, firstByte (slice l 0 11) = firstByte l := by
    intro l
    cases l with
    | nil | cons => rfl
  rw [← hhead, hslice]

theorem recAttr_dirRecord : recAttr (dirRecord name attr cluster size) = attr := by
  have hslice : slice (dirRecord name attr cluster size) 11 1 = [attr] :=
    slice_fill_mem (dirRecord_ordered hname) (by simp) rfl
  have hget := congrArg (fun l => l[0]?) hslice
  simp only [getElem?_slice, Nat.zero_lt_one, if_true, Nat.add_zero, getElem?_cons_zero] at hget
  rw [recAttr, getD_eq_getElem?_getD, hget, Option.getD_some]

theorem recCluster_dirRecord (hc : cluster < 2 ^ 32) : recCluster (dirRecord name attr cluster size) = cluster := by
  have hhi : slice (dirRecord name attr cluster size) 20 2 = leBytes 2 (cluster / 65536) :=
    slice_fill_mem (dirRecord_ordered hname) (by simp) (length_leBytes ..)
  have hlo : slice (dirRecord name attr cluster size) 26 2 = leBytes 2 cluster :=
    slice_fill_mem (dirRecord_ordered hname) (by simp) (length_leBytes ..)
  rw [recCluster, field, field, hhi, hlo, leVal_leBytes, leVal_leBytes]
  omega

theorem recSize_dirRecord (hs : size < 2 ^ 32) : recSize (dirRecord name attr cluster size) = size := by
  have hsize : slice (dirRecord name attr cluster size) 28 4 = leBytes 4 size :=
    slice_fill_mem (dirRecord_ordered hname) (by simp) (length_leBytes ..)
  rw [recSize, field, hsize, leVal_leBytes_of_lt (by omega)]

theorem slotName_dirRecord [Unicode] (p : Option LfnRun) :
    slotName p (dirRecord name attr cluster size) = slotName p name := by
  have hself : slice name 0 11 = name := by rw [← hname, slice_zero_length]
  simp only [slotName, slice_dirRecord hname, hself]

end

theorem readSlot_dirRecord [Unicode] (p : Option LfnRun) {name : List UInt8} (hname : name.length = 11) (isDir : Bool)
    (cluster size : Nat) : readSlot p (dirRecord name (attrOf isDir) cluster size) =
      if firstByte name = 0x00 then .finish else if firstByte name = 0xE5 then .skip none
      else if slotName p name = [] then .skip none else .entry (slotName p name) := by
  have hlfn : attrOf isDir ≠ 0x0F := by cases isDir <;> decide
  have hvol : ¬ attrOf isDir &&& 0x08 ≠ 0 := by cases isDir <;> decide
  rw [readSlot, firstByte_dirRecord hname, recAttr_dirRecord hname, slotName_dirRecord hname, if_neg hlfn, if_neg hvol]

theorem entryOf_dirRecord {name : List UInt8} (hname : name.length = 11) (isDir : Bool) {cluster : Nat}
    (hc : cluster < 2 ^ 32) (n : Name) (loc : Nat × Nat) : entryOf n (loc, dirRecord name (attrOf isDir) cluster 0) =
      { name := n, isDir, cluster, size := 0, recSec := loc.1, recOff := loc.2 } := by
  have hattr : decide (attrOf isDir &&& 0x10 ≠ 0) = isDir := by cases isDir <;> decide
  simp only [entryOf, recAttr_dirRecord hname, recCluster_dirRecord hname hc,
    recSize_dirRecord hname (by norm_num : 0 < 2 ^ 32), hattr]

open Block ErrorFree

variable {b : Bpb} {v v' : Vol} {P n : Nat} {l l' : List Nat} {name : Name} {isDir : Bool} {loc : Nat × Nat}

/-- The volume in which the cluster of a new file or directory is ready. -/
def prepared (b : Bpb) (v : Vol) (P : Nat) (isDir : Bool) (n : Nat) : Vol :=
  if isDir then (v.alloc b n).setClus n (dotRecords b n P) else v.alloc b n

theorem fat_prepared (b : Bpb) (v : Vol) (P : Nat) (isDir : Bool) (n : Nat) :
    (prepared b v P isDir n).fat = (v.alloc b n).fat := by
  unfold prepared
  split_ifs <;> rfl

theorem clus_prepared_of_ne {c : Nat} (hne : c ≠ n) : (prepared b v P isDir n).clus c = v.clus c := by
  unfold prepared
  split_ifs
  · exact (Function.update_of_ne hne _ _).trans (clus_alloc_of_ne hne)
  · exact clus_alloc_of_ne hne

theorem same_prepared (hfree : v.fat n = 0) : SameElsewhere l v (prepared b v P isDir n) := by
  intro x _ hused
  have hne : x ≠ n := fun heq => hused (heq ▸ hfree)
  rw [fat_prepared, fat_alloc_of_ne hne]
  exact ⟨rfl, clus_prepared_of_ne hne⟩

theorem Chained.prepared {c : Nat} (h : Chained b v.fat c l) (hfree : v.fat n = 0) :
    Chained b (prepared b v P isDir n).fat c l := by
  rw [fat_prepared]
  exact h.alloc hfree

theorem dirSlots_prepared {c : Nat} (h : Chained b v.fat c l) (hfree : v.fat n = 0) :
    dirSlots b (prepared b v P isDir n) l = dirSlots b v l :=
  dirSlots_congr fun _ hx => clus_prepared_of_ne (ne_of_mem_of_not_mem hx (h.notMem_of_free hfree))

def newRecord (name : Name) (isDir : Bool) (n : Nat) : List UInt8 :=
  dirRecord (encodeShortName name) (attrOf isDir) n 0

theorem length_newRecord (name : Name) (isDir : Bool) (n : Nat) : (newRecord name isDir n).length = 32 :=
  length_dirRecord (length_encodeShortName name)

/-- A file or directory was made in the directory `P` with the clusters `l`. -/
structure Made (b : Bpb) (v : Vol) (P : Nat) (l : List Nat) (name : Name) (isDir : Bool) (n : Nat) (loc : Nat × Nat)
    (v' : Vol) (l' : List Nat) : Prop where
  isCluster : b.IsCluster n
  free : v.fat n = 0
  added : Added b (prepared b v P isDir n) l (newRecord name isDir n) loc v' l'

theorem length_dotRecords (hspc : 0 < b.secPerCluster) : (dotRecords b n P).length = b.clusterBytes := by
  rw [dotRecords, length_fill, length_zeroCluster]
  intro f hf
  simp only [List.mem_cons, List.not_mem_nil, or_false] at hf
  have hcb : 512 ≤ b.clusterBytes := by
    unfold Bpb.clusterBytes
    omega
  rw [length_zeroCluster]
  rcases hf with rfl | rfl
  · rw [length_dirRecord (by decide)]
    omega
  · rw [length_dirRecord (by decide)]
    omega

/-- What making an entry does; `full` is what a failure to allocate says about the volume. At worst one cluster is
lost: it was allocated before there turned out to be no room for the record. -/
inductive Makes (b : Bpb) (full : Vol → Prop) (v : Vol) (P : Nat) (l : List Nat) (name : Name) (isDir : Bool) :
    Except VfsError DirEntry → Vol → Prop
  | made {n : Nat} {loc : Nat × Nat} {v' : Vol} {l' : List Nat} (h : Made b v P l name isDir n loc v' l') :
      Makes b full v P l name isDir (.ok (newEntry name isDir n loc)) v'
  | noSpace (hfull : full v) : Makes b full v P l name isDir (.error .noSpace) v
  | lost {n : Nat} (hn : b.IsCluster n) (hfree : v.fat n = 0) (hused : ∀ r ∈ dirSlots b v l, isFree r.2 = false)
      (hfull : full (prepared b v P isDir n)) :
      Makes b full v P l name isDir (.error .noSpace) (prepared b v P isDir n)
  | noDir {v' : Vol} (hl : l = []) : Makes b full v P l name isDir (.error .ioError) v'

section

variable {S : Type} [BlockDevice S] [ErrorFree S] {s₀ : S} (hw : b.WellSized (blocks s₀))
include hw

theorem runs_initCluster (hn : b.IsCluster n) :
    Runs (Holds b s₀) (initCluster b isDir n P) (v.alloc b n) (.ok ()) (prepared b v P isDir n) := by
  cases isDir with
  | true => exact runs_writeCluster hw hn (length_dotRecords hw.spc_pos)
  | false => exact Runs.pure () _

section

variable {alloc : FatM S Nat} {full : Vol → Prop}
  (halloc : ∀ v, Meets (Holds b s₀) alloc v fun r v' => Allocates b v r v' ∧ (r = .error .noSpace → full v))
  (hc : Chained b v.fat P l)
include halloc hc

/-- A cluster that was just allocated becomes a file or directory, if there is room for its record. -/
theorem meets_fillEntry (hn : b.IsCluster n) (hfree : v.fat n = 0) : Meets (Holds b s₀)
      (initCluster b isDir n P >>= fun _ => addDirRecord b alloc P (newRecord name isDir n) >>= fun loc =>
        pure (newEntry name isDir n loc)) (v.alloc b n) fun r v' =>
      (∃ loc l', r = .ok (newEntry name isDir n loc) ∧ Made b v P l name isDir n loc v' l') ∨
      (r = .error .noSpace ∧ v' = prepared b v P isDir n ∧ (∀ r ∈ dirSlots b v l, isFree r.2 = false) ∧
        full (prepared b v P isDir n)) ∨ (r = .error .ioError ∧ v' = prepared b v P isDir n ∧ l = []) := by
  refine Meets.bind_runs (runs_initCluster hw hn)
    ((meets_addDirRecord hw (halloc _) (hc.prepared hfree) (length_newRecord name isDir n)).bind ?_ ?_)
  · rintro loc v₂ (⟨loc', l', hloc, hadded⟩ | ⟨habs, -⟩ | ⟨habs, -⟩)
    · cases hloc
      exact Meets.of_runs (Runs.pure _ _) (.inl ⟨loc, l', rfl, hn, hfree, hadded⟩)
    · cases habs
    · cases habs
  · rintro e v₂ (⟨loc', l', habs, -⟩ | ⟨herr, rfl, hused, hE⟩ | ⟨herr, rfl, hnil⟩)
    · cases habs
    · obtain rfl := Except.error.inj herr
      rw [dirSlots_prepared hc hfree] at hused
      exact .inr (.inl ⟨rfl, rfl, hused, hE rfl⟩)
    · obtain rfl := Except.error.inj herr
      exact .inr (.inr ⟨rfl, rfl, hnil⟩)

theorem meets_makeEntry :
    Meets (Holds b s₀) (makeEntry b alloc isDir P name) v (Makes b full v P l name isDir) := by
  refine meets_alloc_bind (halloc v) (fun n hn hfree => ?_) fun hE => .noSpace (hE rfl)
  refine (meets_fillEntry hw halloc hc hn hfree).mono ?_
  rintro r v' (⟨loc, l', rfl, hmade⟩ | ⟨rfl, rfl, hused, hfull⟩ | ⟨rfl, -, hnil⟩)
  · exact .made hmade
  · exact .lost hn hfree hused hfull
  · exact .noDir hnil

end

variable [Unicode]

theorem runs_refuseDuplicate (hc : Chained b v.fat P l) (name : Name) : Runs (Holds b s₀) (refuseDuplicate b P name) v
      (if (findName (dirEntries b v P) name).isSome then .error .alreadyExists else .ok ()) v := by
  have hany : (dirEntries b v P).any (·.name = toAsciiLowercase name) = (findName (dirEntries b v P) name).isSome := by
    rw [findName, ← List.isSome_find?]
  refine (runs_readDirEntries hw hc).bind ?_
  rw [hany]
  cases (findName (dirEntries b v P) name).isSome with
  | true => exact Runs.failIf_true rfl _ v
  | false => exact Runs.failIf_false (by simp) _ v

/-- What a call that creates a name does: it finds the name, or makes it. -/
def Creates (b : Bpb) (v : Vol) (P : Nat) (l : List Nat) (name : Name) (isDir : Bool) (r : Except VfsError DirEntry)
    (v' : Vol) : Prop :=
  (∃ e, findName (dirEntries b v P) name = some e ∧ (r = .ok e ∨ r = .error .alreadyExists) ∧ v' = v) ∨
    (findName (dirEntries b v P) name = none ∧ Makes b (NoFree b) v P l name isDir r v')

theorem meets_createEntry_new (hc : Chained b v.fat P l) (isDir : Bool) (name : Name) :
    Meets (Holds b s₀) (createEntry b isDir P name) v fun r v' =>
      (∃ e, findName (dirEntries b v P) name = some e ∧ r = .error .alreadyExists ∧ v' = v) ∨
        (findName (dirEntries b v P) name = none ∧ Makes b (NoFree b) v P l name isDir r v') := by
  have hdup := runs_refuseDuplicate hw hc name
  cases hfind : findName (dirEntries b v P) name with
  | some e =>
    rw [hfind] at hdup
    exact Meets.of_runs hdup.bind_error (.inl ⟨e, rfl, rfl, rfl⟩)
  | none =>
    rw [hfind] at hdup
    exact Meets.bind_runs hdup
      ((meets_makeEntry hw (meets_allocCluster hw) hc).mono fun r v' hmakes => .inr ⟨rfl, hmakes⟩)

theorem meets_createEntry (hc : Chained b v.fat P l) (isDir : Bool) (name : Name) :
    Meets (Holds b s₀) (createEntry b isDir P name) v (Creates b v P l name isDir) :=
  (meets_createEntry_new hw hc isDir name).mono fun _ _ h =>
    h.imp_left fun ⟨e, hfind, hr, hv⟩ => ⟨e, hfind, .inr hr, hv⟩

end
end Ruos.Fat
