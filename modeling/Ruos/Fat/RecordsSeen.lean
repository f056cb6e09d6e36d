import Ruos.Fat.AuthoringRuns

/-! Every record written to a formatted volume is seen by every later scan of its directory. -/
namespace Ruos.Fat

open Lib Vfs Block ErrorFree FatWriter List
open BlockDevice (blockCount)

section

variable {S : Type} [BlockDevice S] [ErrorFree S] [Unicode]

/-- The scans of the directory `P` do not end in front of the record and do not take it for a free one. If it is a
short record, `read_dir_entries` lists it (unless the name it decodes to is empty), `find_subdir` does not miss its
name, and `short_name_exists` knows it; the last one sees volume labels, too. -/
structure Seen (b : Bpb) (fs : FatWriter S) (P : Nat) (rec : List UInt8) : Prop where
  reached : ∃ v A r B, Mounted b (mem fs) v ∧ dirSlots b v (chainOf b v.fat P) = A ++ r :: B ∧ r.2 = rec ∧
    (∀ x ∈ A, firstByte x.2 ≠ 0x00) ∧ firstByte rec ≠ 0x00 ∧ firstByte rec ≠ 0xE5
  listed : recAttr rec ≠ 0x0F → recAttr rec &&& 0x08 = 0 → ∃ es fs', readDirEntries b P fs = .ok es fs' ∧
    ∃ p loc, slotName p rec = [] ∨ entryOf (slotName p rec) (loc, rec) ∈ es
  subdir : recAttr rec ≠ 0x0F → recAttr rec &&& 0x08 = 0 → ∃ r fs',
    findSubdir b P (decodeShortName (slice rec 0 11)) fs = outcome r fs' ∧ r ≠ .ok none
  short : recAttr rec ≠ 0x0F → ∃ fs', shortNameExists b P (slice rec 0 11) fs = .ok true fs'

variable {w₀ : FatWriter S} {b : Bpb} {v : Vol} {s : Authoring S} {dirs : List Nat} {written : List (Nat × List UInt8)}
  {x : Nat × List UInt8}

theorem Authored.seen (hw : b.WellSized (blocks w₀)) (hv : Holds b w₀ s.fs v) (h : Authored b v dirs written)
    (hx : x ∈ written) : Seen b s.fs x.1 x.2 := by
  obtain ⟨hdir, hused, loc, hloc⟩ := h.kept x hx
  have hc := h.chained x.1 hdir
  obtain ⟨A, B, hsplit⟩ := append_of_mem hloc
  have hended := (h.closed x.1 hdir).ended
  rw [hsplit] at hended
  have hA := used_before hended (firstByte_ne_zero_of_used hused)
  constructor
  · simp only [isFree, Bool.or_eq_false_iff, decide_eq_false_iff_not] at hused
    exact ⟨v, A, _, B, hv.2, hsplit, rfl, hA, hused⟩
  · intro hattr hvol
    obtain ⟨fs', hrun, -⟩ := runs_readDirEntries hw hc s.fs hv
    have hlist : ∃ p, slotName p x.2 = [] ∨
        entryOf (slotName p x.2) (loc, x.2) ∈ (scan none (A ++ (loc, x.2) :: B)).1 :=
      scan_lists (r := (loc, x.2)) hA rfl hused hattr hvol
    obtain ⟨p, hlist⟩ := hlist
    rw [dirEntries_eq hc, hsplit] at hrun
    exact ⟨_, fs', hrun, p, loc, hlist⟩
  · intro hattr hvol
    obtain ⟨fs', hrun, -⟩ := runs_searchDir hw (subdirAt (decodeShortName (slice x.2 0 11))) none hc s.fs hv
    rw [hsplit] at hrun
    exact ⟨_, fs', hrun, searched_subdir hA rfl hused hattr hvol⟩
  · intro hattr
    obtain ⟨fs', hrun, -⟩ := runs_searchDir hw (shortAt (slice x.2 0 11)) false hc s.fs hv
    have hfound : searched (shortAt (slice x.2 0 11)) false (A ++ (loc, x.2) :: B) = .ok true :=
      searched_short hA rfl hused hattr
    rw [hsplit, hfound] at hrun
    exact ⟨fs', hrun⟩

theorem Seen.used {fs : FatWriter S} {P : Nat} {rec : List UInt8} (h : Seen b fs P rec) : isFree rec = false := by
  obtain ⟨v, A, r, B, -, -, -, -, hzero, hdel⟩ := h.reached
  simp [isFree, hzero, hdel]

end

section

variable {b : Bpb} {v : Vol} {blocks : Nat}

end

section

variable {S : Type} [BlockDevice S] [ErrorFree S] [Unicode] {d m s₁ : S} {b : Bpb} {volId : List UInt8} {hint : Nat}
  {calls : List AddCall} {u : Authoring S}

end

end Ruos.Fat
