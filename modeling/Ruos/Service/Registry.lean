import Mathlib

/-! The unit registry of `service/mod.rs`: every function here is one critical section of its lock. The counters of
runs and restarts, which only serve the display and the length of the back-off, are left out. -/
namespace Ruos.Service

open List

def builtinPath : String := "<builtin>"

inductive UnitKind
  | oneshot
  | daemon
deriving DecidableEq

inductive RestartPolicy
  | no
  | onFailure
  | always
deriving DecidableEq

inductive ActivateTarget
  | boot
  | postBoot
  | manual
deriving DecidableEq

inductive UnitStatus
  | idle
  | running
  | exited (code : Int)
  | failed (reason : String)
  | restarting
deriving DecidableEq

/-- What a unit file, or the code that registers the unit, says about it. -/
structure UnitConfig where
  name : String
  path : String
  kind : UnitKind
  restart : RestartPolicy
  after : List String
  requires : List String
  target : ActivateTarget
  enabled : Bool
  file : Option String
deriving DecidableEq

structure UnitEntry extends UnitConfig where
  status : UnitStatus
  pid : Option Nat
  stopRequested : Bool
deriving DecidableEq

inductive ServiceError
  | notFound
  | alreadyRunning
  | notSupported
deriving DecidableEq

abbrev Units := List UnitEntry

def UnitConfig.entry (c : UnitConfig) : UnitEntry := { c with status := .idle, pid := none, stopRequested := false }

def UnitEntry.active (u : UnitEntry) : Bool := u.status = .running || u.status = .restarting

namespace Units

def lookup (us : Units) (name : String) : Option UnitEntry := us.find? fun u => u.name = name

def modify (name : String) (f : UnitEntry → UnitEntry) : Units → Units
  | [] => []
  | u :: us => if u.name = name then f u :: us else u :: modify name f us

def register (us : Units) (c : UnitConfig) : Units := if (us.lookup c.name).isSome then us else us ++ [c.entry]

/-- The check that `start` makes before it queues the request. -/
def startCheck (us : Units) (name : String) : Except ServiceError Unit :=
  match us.lookup name with
  | none => .error .notFound
  | some u =>
    if u.active then .error .alreadyRunning
    else if u.path = builtinPath then .error .notSupported
    else .ok ()

/-- The kill of the recorded process, which follows, is only a request. -/
def stop (us : Units) (name : String) : Except ServiceError Units :=
  match us.lookup name with
  | none => .error .notFound
  | some u =>
    if u.path = builtinPath then .error .notSupported
    else .ok (us.modify name fun u => { u with stopRequested := true })

def markRunning (us : Units) (name : String) (pid : Nat) : Units :=
  us.modify name fun u => { u with status := .running, pid := some pid }

def markExited (us : Units) (name : String) (code : Int) : Units :=
  us.modify name fun u => { u with status := .exited code, pid := none, stopRequested := false }

def markFailed (us : Units) (name : String) (reason : String) : Units :=
  us.modify name fun u => { u with status := .failed reason, pid := none }

def markRestarting (us : Units) (name : String) : Units :=
  us.modify name fun u => { u with status := .restarting, pid := none }

def takeStopRequested (us : Units) (name : String) : Bool × Units :=
  (((us.lookup name).map UnitEntry.stopRequested).getD false,
    us.modify name fun u => { u with stopRequested := false })

/-- The first half of `reload`: units from files that are not running are dropped. -/
def retainActive (us : Units) : Units := us.filter fun u => u.file.isNone || u.active

def isUp (us : Units) (name : String) : Bool :=
  match us.lookup name with
  | none => false
  | some u =>
    match u.kind with
    | .daemon => u.status = .running
    | .oneshot => u.status = .exited 0

def isFailed (us : Units) (name : String) : Bool :=
  match us.lookup name with
  | none => false
  | some u => match u.status with
    | .failed _ => true
    | _ => false

def Distinct (us : Units) : Prop := (us.map fun u => u.name).Nodup

variable {us : Units} {name : String} {f : UnitEntry → UnitEntry}

theorem map_name_modify (hf : ∀ u, (f u).name = u.name) :
    (us.modify name f).map (fun u => u.name) = us.map fun u => u.name := by
  induction us with
  | nil => rfl
  | cons u us ih =>
    rw [modify]
    split
    · rw [map_cons, map_cons, hf u]
    · rw [map_cons, map_cons, ih]

theorem Distinct.modify (h : us.Distinct) (hf : ∀ u, (f u).name = u.name) : (us.modify name f).Distinct := by
  unfold Distinct
  rw [map_name_modify hf]
  exact h

theorem mem_modify (h : us.Distinct) {v : UnitEntry} (hv : v ∈ us.modify name f) :
    (v ∈ us ∧ v.name ≠ name) ∨ ∃ u ∈ us, u.name = name ∧ v = f u := by
  induction us with
  | nil => cases hv
  | cons u us ih =>
    obtain ⟨hu, hus⟩ := nodup_cons.mp h
    rw [modify] at hv
    split at hv
    · rename_i hname
      rcases mem_cons.mp hv with rfl | hv
      · exact .inr ⟨u, by simp, hname, rfl⟩
      · refine .inl ⟨mem_cons_of_mem u hv, fun heq => hu ?_⟩
        exact mem_map.mpr ⟨v, hv, heq.trans hname.symm⟩
    · rename_i hname
      rcases mem_cons.mp hv with rfl | hv
      · exact .inl ⟨by simp, hname⟩
      · rcases ih hus hv with ⟨hmem, hne⟩ | ⟨w, hw, hwn, rfl⟩
        · exact .inl ⟨mem_cons_of_mem u hmem, hne⟩
        · exact .inr ⟨w, mem_cons_of_mem u hw, hwn, rfl⟩

theorem lookup_eq_some {u : UnitEntry} (h : us.lookup name = some u) : u ∈ us ∧ u.name = name := by
  have hmem := mem_of_find?_eq_some h
  have hname := find?_some h
  exact ⟨hmem, by simpa using hname⟩

theorem lookup_eq_none : us.lookup name = none ↔ ∀ u ∈ us, u.name ≠ name := by
  unfold lookup
  simp

theorem Distinct.lookup_of_mem (h : us.Distinct) {u : UnitEntry} (hu : u ∈ us) : us.lookup u.name = some u := by
  cases hl : us.lookup u.name with
  | none => exact absurd rfl (lookup_eq_none.mp hl u hu)
  | some v =>
    obtain ⟨hv, hname⟩ := lookup_eq_some hl
    exact congrArg some (inj_on_of_nodup_map h hv hu hname)

theorem stop_eq_ok {us' : Units} (h : us.stop name = .ok us') : ∃ u, us.lookup name = some u ∧ u.path ≠ builtinPath ∧
      us' = us.modify name fun u => { u with stopRequested := true } := by
  unfold stop at h
  split at h
  · cases h
  · rename_i u hu
    split at h <;> cases h
    rename_i hpath
    exact ⟨u, hu, hpath, rfl⟩

theorem Distinct.register (h : us.Distinct) (c : UnitConfig) : (us.register c).Distinct := by
  unfold Units.register
  split
  · exact h
  · rename_i hnone
    have hfree := lookup_eq_none.mp (Option.not_isSome_iff_eq_none.mp hnone)
    unfold Distinct
    rw [map_append]
    refine nodup_append.mpr ⟨h, by simp, ?_⟩
    intro a ha b hb heq
    obtain ⟨u, hu, rfl⟩ := mem_map.mp ha
    obtain rfl : b = c.name := by simpa [UnitConfig.entry] using hb
    exact hfree u hu heq

theorem mem_register {c : UnitConfig} {v : UnitEntry} (hv : v ∈ us.register c) : v ∈ us ∨ v = c.entry := by
  unfold Units.register at hv
  split at hv
  · exact .inl hv
  · rcases mem_append.mp hv with hv | hv
    · exact .inl hv
    · exact .inr (mem_singleton.mp hv)

theorem Distinct.retainActive (h : us.Distinct) : us.retainActive.Distinct :=
  (filter_sublist.map _).nodup h

end Units

end Ruos.Service
