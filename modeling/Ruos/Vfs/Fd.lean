import Ruos.Lib.Run
import Ruos.Vfs.Basic

/-! The global descriptor table (`vfs/fd.rs`) and the take-and-restore protocol that
`with_fd_take` runs on it. Every table access is one atomic step; any number of
operations may be between their `take` and their `restore`. -/
namespace Ruos.Vfs.Fd

open Lib Function List Option

inductive Slot (F : Type) where
  | free
  | inFlight
  | opened (file : F)
  deriving DecidableEq, Repr

def Slot.isFree {F : Type} : Slot F → Bool
  | .free => true
  | _ => false

section
variable {F : Type}

/-- `Fd` is a `u32`: the index is narrowed on return. -/
def allocate (t : List (Slot F)) (file : F) : Nat × List (Slot F) :=
  match t.findIdx? Slot.isFree with
  | some i => (i % 2 ^ 32, t.set i (.opened file))
  | none => (t.length % 2 ^ 32, t ++ [.opened file])

def close (t : List (Slot F)) (fd : Nat) : Except VfsError Unit × List (Slot F) :=
  match t[fd]? with
  | none => (.error .badFd, t)
  | some .free => (.error .badFd, t)
  | some .inFlight | some (.opened _) => (.ok (), t.set fd .free)

def otherState : Slot F → Slot F
  | .free => .free
  | _ => .inFlight

/-- The slot is replaced by `InFlight` first and put back if it held no entry. -/
def take (t : List (Slot F)) (fd : Nat) : Except VfsError F × List (Slot F) :=
  match t[fd]? with
  | none => (.error .badFd, t)
  | some (.opened e) => (.ok e, t.set fd .inFlight)
  | some other => (.error .badFd, t.set fd (otherState other))

def restore (t : List (Slot F)) (fd : Nat) (entry : F) : List (Slot F) :=
  match t[fd]? with
  | some .inFlight => t.set fd (.opened entry)
  | _ => t

/-- The index of the slot that `allocate` fills. -/
def allocSlot (t : List (Slot F)) : Nat :=
  (t.findIdx? Slot.isFree).getD t.length

theorem allocate_fst (t : List (Slot F)) (f : F) : (allocate t f).1 = allocSlot t % 2 ^ 32 := by
  unfold allocate allocSlot
  cases t.findIdx? Slot.isFree <;> rfl

theorem allocate_getElem? (t : List (Slot F)) (f : F) (n : Nat) :
    (allocate t f).2[n]? = if n = allocSlot t then some (.opened f) else t[n]? := by
  unfold allocate allocSlot
  cases h : t.findIdx? Slot.isFree with
  | none =>
    rcases Nat.lt_trichotomy n t.length with hn | hn | hn
    · simp [getElem?_append_left hn, Nat.ne_of_lt hn]
    · simp [hn]
    · have hne : n ≠ t.length := by omega
      have hout : (t ++ [Slot.opened f]).length ≤ n := by simp; omega
      simp only [getD_none, hne, if_false]
      rw [getElem?_eq_none hout, getElem?_eq_none (Nat.le_of_lt hn)]
  | some i =>
    obtain ⟨hi, -⟩ := findIdx?_eq_some_iff_getElem.mp h
    by_cases hn : n = i
    · subst hn
      simp [getElem?_set_self hi]
    · simp [hn, getElem?_set_ne (Ne.symm hn)]

variable {fd : Nat}

theorem take_ok {t t' : List (Slot F)} {e : F} (h : take t fd = (.ok e, t')) :
    t[fd]? = some (.opened e) ∧ t' = t.set fd .inFlight := by
  unfold take at h
  split at h
  · simp at h
  · next f hf =>
    simp only [Prod.mk.injEq, Except.ok.injEq] at h
    exact ⟨h.1 ▸ hf, h.2.symm⟩
  · simp at h

theorem close_ok {t t' : List (Slot F)} (h : close t fd = (.ok (), t')) : t' = t.set fd .free := by
  unfold close at h
  split at h <;> simp_all

variable {t : List (Slot F)}

theorem set_getElem? {x y : Slot F} (h : t[fd]? = some x) (n : Nat) :
    (t.set fd y)[n]? = if n = fd then some y else t[n]? := by
  obtain ⟨hlt, -⟩ := List.getElem?_eq_some_iff.mp h
  by_cases hn : n = fd
  · subst hn; simp [getElem?_set_self hlt]
  · simp [hn, getElem?_set_ne (Ne.symm hn)]

theorem restore_getElem?_of_inFlight (h : t[fd]? = some .inFlight) (e : F) (n : Nat) :
    (restore t fd e)[n]? = if n = fd then some (.opened e) else t[n]? := by
  simp only [restore, h]
  exact set_getElem? h n

theorem restore_of_not_inFlight (h : t[fd]? ≠ some .inFlight) (e : F) : restore t fd e = t := by
  unfold restore
  split
  · contradiction
  · rfl

theorem restore_getElem?_other {e : F} {n : Nat} (h : ¬ (n = fd ∧ t[fd]? = some .inFlight)) :
    (restore t fd e)[n]? = t[n]? := by
  by_cases hfl : t[fd]? = some .inFlight
  · rw [restore_getElem?_of_inFlight hfl, if_neg fun hn => h ⟨hn, hfl⟩]
  · rw [restore_of_not_inFlight hfl]

end

/-- A file object: the number of the `allocate` call that brought it into the table, and
the state that operations on it change. -/
structure FileObj (σ : Type) where
  serial : Nat
  state : σ
  deriving DecidableEq, Repr

/-- An operation between its `take` and its `restore`. `owner` records who owned the
number when the operation took it. -/
structure Op (σ : Type) where
  fd : Nat
  owner : Option Nat
  entry : FileObj σ
  deriving DecidableEq, Repr

/-- The table, the operations in flight, and for each number the serial of its latest
`allocate` if it has not been closed since. -/
structure System (σ : Type) where
  table : List (Slot (FileObj σ))
  ops : Nat → Option (Op σ)
  owner : Nat → Option Nat
  next : Nat

def System.empty (σ : Type) : System σ := ⟨[], fun _ => none, fun _ => none, 0⟩

inductive Event (σ : Type) where
  | allocate (state : σ)
  | close (fd : Nat)
  | take (op fd : Nat)
  | work (op : Nat) (state : σ)
  | restore (op : Nat)

variable {σ : Type}

/-- A call that returns `BadFd` is a step that changes nothing. -/
def step (s : System σ) : Event σ → Option (System σ)
  | .allocate st =>
    let (n, t) := allocate s.table ⟨s.next, st⟩
    some { s with table := t, owner := Function.update s.owner n (some s.next), next := s.next + 1 }
  | .close fd =>
    match close s.table fd with
    | (.ok (), t) => some { s with table := t, owner := Function.update s.owner fd none }
    | (.error _, _) => some s
  | .take op fd =>
    match s.ops op with
    | some _ => none
    | none =>
      match take s.table fd with
      | (.ok e, t) =>
        some { s with table := t, ops := Function.update s.ops op (some ⟨fd, s.owner fd, e⟩) }
      | (.error _, _) => some s
  | .work op st =>
    match s.ops op with
    | none => none
    | some o =>
      some { s with ops := Function.update s.ops op (some { o with entry := { o.entry with state := st } }) }
  | .restore op =>
    match s.ops op with
    | none => none
    | some o =>
      some { s with table := restore s.table o.fd o.entry, ops := Function.update s.ops op none }

/-- What the protocol promises of a state: an operation acts on the file of the owner
that started it, an open slot holds the file of the latest `allocate` of its number, and
a number that is still owned has its file in the slot or out with its own operation. -/
structure Sound (s : System σ) : Prop where
  acts : ∀ op o, s.ops op = some o → o.owner = some o.entry.serial
  holds : ∀ (n : Nat) (e : FileObj σ), s.table[n]? = some (.opened e) → s.owner n = some e.serial
  kept : ∀ n serial, s.owner n = some serial →
    (∃ e : FileObj σ, s.table[n]? = some (.opened e) ∧ e.serial = serial) ∨
      (s.table[n]? = some .inFlight ∧ ∃ op o, s.ops op = some o ∧ o.fd = n ∧ o.owner = some serial)

/-- The step does not meet either defect: the index fits a `u32`, and a `restore` that
finds its slot in flight is made while the number still has the owner it was taken from. -/
def Undisturbed (s : System σ) : Event σ → Prop
  | .allocate _ => allocSlot s.table < 2 ^ 32
  | .restore op => ∀ o, s.ops op = some o → s.table[o.fd]? = some .inFlight → s.owner o.fd = o.owner
  | _ => True

theorem sound_empty : Sound (System.empty σ) where
  acts := by simp [System.empty]
  holds := by simp [System.empty]
  kept := by simp [System.empty]

variable {s s' : System σ}

theorem sound_allocate {st : σ} (h : Sound s) (hg : Undisturbed s (.allocate st))
    (hs : step s (.allocate st) = some s') : Sound s' := by
  have hn : (allocate s.table ⟨s.next, st⟩).1 = allocSlot s.table := by
    rw [allocate_fst]
    exact Nat.mod_eq_of_lt hg
  have hs' : s' = { s with
      table := (allocate s.table ⟨s.next, st⟩).2
      owner := update s.owner (allocSlot s.table) (some s.next)
      next := s.next + 1 } := by
    rw [← hn]; exact (some.inj hs).symm
  subst hs'
  refine ⟨h.acts, fun n e he => ?_, fun n serial ho => ?_⟩
  · simp only [allocate_getElem?] at he
    by_cases hne : n = allocSlot s.table
    · simp only [hne, if_true, some.injEq, Slot.opened.injEq] at he
      simp [hne, ← he]
    · simp only [hne, if_false] at he
      simpa [update_of_ne hne] using h.holds n e he
  · by_cases hne : n = allocSlot s.table
    · have hser : s.next = serial := by simpa [hne] using ho
      exact .inl ⟨⟨s.next, st⟩, by simp [allocate_getElem?, hne], hser⟩
    · have ho' : s.owner n = some serial := by simpa [update_of_ne hne] using ho
      simpa [allocate_getElem?, hne] using h.kept n serial ho'

theorem sound_close {fd : Nat} (h : Sound s) (hs : step s (.close fd) = some s') : Sound s' := by
  simp only [step] at hs
  split at hs
  · next t ht =>
    have hset := close_ok ht
    have hsome : ∃ x, s.table[fd]? = some x := by
      cases hx : s.table[fd]? with
      | none => simp [close, hx] at ht
      | some x => exact ⟨x, rfl⟩
    obtain ⟨x, hx⟩ := hsome
    cases hs
    refine ⟨h.acts, fun n e he => ?_, fun n serial ho => ?_⟩
    · by_cases hne : n = fd
      · simp [hset, set_getElem? hx, hne] at he
      · simp only [hset, set_getElem? hx, hne, if_false] at he
        simpa [update_of_ne hne] using h.holds n e he
    · by_cases hne : n = fd
      · simp [hne] at ho
      · have ho' : s.owner n = some serial := by simpa [update_of_ne hne] using ho
        simpa [hset, set_getElem? hx, hne] using h.kept n serial ho'
  · cases hs
    exact h

theorem sound_take {op fd : Nat} (h : Sound s) (hs : step s (.take op fd) = some s') : Sound s' := by
  simp only [step] at hs
  split at hs
  · simp at hs
  · next hop =>
    split at hs
    · next e t ht =>
      obtain ⟨hopen, hset⟩ := take_ok ht
      have hown := h.holds fd e hopen
      cases hs
      refine ⟨fun op' o ho => ?_, fun n e' he => ?_, fun n serial ho => ?_⟩
      · by_cases hne : op' = op
        · subst hne
          simp only [update_self, some.injEq] at ho
          simp [← ho, hown]
        · exact h.acts op' o (by simpa [update_of_ne hne] using ho)
      · by_cases hne : n = fd
        · simp [hset, set_getElem? hopen, hne] at he
        · exact h.holds n e' (by simpa [hset, set_getElem? hopen, hne] using he)
      · by_cases hne : n = fd
        · subst hne
          refine .inr ⟨by simp [hset, set_getElem? hopen], op, ⟨n, s.owner n, e⟩, ?_, rfl, ho⟩
          simp
        · rcases h.kept n serial ho with hk | ⟨hk, op', o, ho', hfd, hser⟩
          · exact .inl (by simpa [hset, set_getElem? hopen, hne] using hk)
          · have hne' : op' ≠ op := by
              rintro rfl
              simp [hop] at ho'
            refine .inr ⟨by simpa [hset, set_getElem? hopen, hne] using hk, op', o, ?_, hfd, hser⟩
            simpa [update_of_ne hne'] using ho'
    · cases hs
      exact h

theorem sound_work {op : Nat} {st : σ} (h : Sound s) (hs : step s (.work op st) = some s') : Sound s' := by
  simp only [step] at hs
  split at hs
  · simp at hs
  · next o ho =>
    cases hs
    refine ⟨fun op' o' ho' => ?_, h.holds, fun n serial hown => ?_⟩
    · by_cases hne : op' = op
      · subst hne
        simp only [update_self, some.injEq] at ho'
        simpa [← ho'] using h.acts op' o ho
      · exact h.acts op' o' (by simpa [update_of_ne hne] using ho')
    · rcases h.kept n serial hown with hk | ⟨hk, op', o', ho', hfd, hser⟩
      · exact .inl hk
      · by_cases hne : op' = op
        · subst hne
          obtain rfl : o = o' := some.inj (ho.symm.trans ho')
          exact .inr ⟨hk, op', _, update_self .., hfd, hser⟩
        · exact .inr ⟨hk, op', o', by simpa [update_of_ne hne] using ho', hfd, hser⟩

theorem sound_restore {op : Nat} (h : Sound s) (hg : Undisturbed s (.restore op))
    (hs : step s (.restore op) = some s') : Sound s' := by
  simp only [step] at hs
  split at hs
  · simp at hs
  · next o ho =>
    have hacts := h.acts op o ho
    cases hs
    refine ⟨fun op' o' ho' => ?_, fun n e he => ?_, fun n serial hown => ?_⟩
    · by_cases hne : op' = op
      · simp [hne] at ho'
      · exact h.acts op' o' (by simpa [update_of_ne hne] using ho')
    · by_cases hin : n = o.fd ∧ s.table[o.fd]? = some .inFlight
      · obtain ⟨rfl, hfl⟩ := hin
        obtain rfl : o.entry = e := by simpa [restore_getElem?_of_inFlight hfl] using he
        rw [hg o ho hfl, hacts]
      · exact h.holds n e ((restore_getElem?_other hin).symm.trans he)
    · by_cases hin : n = o.fd ∧ s.table[o.fd]? = some .inFlight
      · obtain ⟨rfl, hfl⟩ := hin
        have hsame : some serial = some o.entry.serial := by rw [← hown, hg o ho hfl, hacts]
        refine .inl ⟨o.entry, ?_, (some.inj hsame).symm⟩
        simp [restore_getElem?_of_inFlight hfl]
      · simp only [restore_getElem?_other hin]
        rcases h.kept n serial hown with hk | ⟨hk, op', o', ho', hfd, hser⟩
        · exact .inl hk
        · have hne : op' ≠ op := by
            rintro rfl
            obtain rfl : o = o' := some.inj (ho.symm.trans ho')
            exact hin ⟨hfd.symm, hfd ▸ hk⟩
          exact .inr ⟨hk, op', o', by simpa [update_of_ne hne] using ho', hfd, hser⟩

theorem sound_step (s : System σ) (e : Event σ) (s' : System σ) (h : Sound s)
    (hg : Undisturbed s e) (hs : step s e = some s') : Sound s' := by
  cases e with
  | allocate st => exact sound_allocate h hg hs
  | close fd => exact sound_close h hs
  | take op fd => exact sound_take h hs
  | work op st => exact sound_work h hs
  | restore op => exact sound_restore h hg hs

/-- In every run without a disturbed step, operations act on their owner's file, a
restore installs a file only under a number whose latest `allocate` is that file's, and
once no operation is in flight every owned number has its own file in its slot. -/
theorem fd_protocol_sound {es : List (Event σ)} {s : System σ} (hg : Guarded step Undisturbed (System.empty σ) es)
    (he : exec step (System.empty σ) es = some s) : Sound s ∧
    (∀ op s', Undisturbed s (.restore op) → step s (.restore op) = some s' →
      ∀ (n : Nat) (e : FileObj σ), s'.table[n]? = some (.opened e) → s.owner n = some e.serial) ∧
    ((∀ op, s.ops op = none) → ∀ n serial, s.owner n = some serial →
      ∃ e : FileObj σ, s.table[n]? = some (.opened e) ∧ e.serial = serial) := by
  have hs : Sound s := exec_invariant sound_step sound_empty hg he
  refine ⟨hs, fun op s' hgr hstep n e hopen => ?_, fun hidle n serial hown => ?_⟩
  · have howner : s'.owner = s.owner := by
      simp only [step] at hstep
      split at hstep
      · simp at hstep
      · cases hstep
        rfl
    rw [← howner]
    exact (sound_restore hs hgr hstep).holds n e hopen
  · rcases hs.kept n serial hown with hk | ⟨-, op, o, ho, -⟩
    · exact hk
    · simp [hidle op] at ho

/-- One descriptor is opened, used by an operation and left with its own file. -/
theorem fd_protocol_sound_one_operation :
    Guarded step Undisturbed (System.empty Unit) [.allocate (), .take 1 0, .restore 1] ∧
      ∀ s, exec step (System.empty Unit) [.allocate (), .take 1 0, .restore 1] = some s → Sound s := by
  refine ⟨?guarded, fun s hs => (fd_protocol_sound ?guarded hs).1⟩
  refine ⟨show 0 < 2 ^ 32 by decide, fun s₁ h₁ => ⟨trivial, fun s₂ h₂ => ⟨?_, fun _ _ => trivial⟩⟩⟩
  cases h₁
  cases h₂
  rintro o ho -
  cases ho
  rfl

/-- A `close` during I/O frees the number, the next `allocate` hands it out again, and the
late `restore` finds the new owner's operation in flight: it installs the old file. -/
theorem stale_restore_crosses_owners : ∃ s : System Unit, exec step (System.empty Unit)
        [.allocate (), .take 1 0, .close 0, .allocate (), .take 2 0, .restore 1, .restore 2] = some s ∧
      (∀ op, s.ops op = none) ∧ s.owner 0 = some 1 ∧ s.table[0]? = some (.opened ⟨0, ()⟩) ∧ ¬ Sound s := by
  refine ⟨_, rfl, fun op => ?_, rfl, rfl, fun h => ?_⟩
  · by_cases h₂ : op = 2
    · subst h₂; rfl
    · by_cases h₁ : op = 1
      · subst h₁; rfl
      · simp [update_of_ne h₂, update_of_ne h₁, System.empty]
  · have := h.holds 0 ⟨0, ()⟩ rfl
    simp [update] at this

end Ruos.Vfs.Fd
