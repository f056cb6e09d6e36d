import Ruos.Lib.Run
import Ruos.Vfs.Basic

/-! How a path of a guest of the wasmi runtime is resolved, and which paths a guest with a granted root reaches. -/
namespace Ruos.Wasm

open Lib List Vfs Function

/-- The path that `resolve_cwd` and `norm_cwd` cut into segments. -/
def combined (base path : List Char) : List Char :=
  if path.head? = some '/' then path
  else (if base.getLast? = some '/' then base else base ++ ['/']) ++ path

def pushSegment (out : List Name) (seg : Name) : List Name :=
  if seg = [] ∨ seg = ['.'] then out
  else if seg = ['.', '.'] then out.dropLast
  else out ++ [seg]

def resolveCwd (base path : List Char) : List Char :=
  let out := ((combined base path).splitOn '/').foldl pushSegment []
  let result := '/' :: ['/'].intercalate out
  if 1 < result.length ∧ result.getLast? = some '/' then result.dropLast else result

def grants (root abs : List Char) : Bool :=
  if root = ['/'] then true
  else
    let root := root.rdropWhile (· = '/')
    abs = root || (root ++ ['/']).isPrefixOf abs

def Clean (cs : List Name) : Prop := ∀ c ∈ cs, Path.isRefused c = false ∧ '/' ∉ c

variable {cs segs out : List Name} {base path root abs : List Char}

theorem Clean.foldl (h : Clean out) (hsegs : ∀ s ∈ segs, '/' ∉ s) : Clean (segs.foldl pushSegment out) := by
  induction segs generalizing out with
  | nil => exact h
  | cons s segs ih =>
    refine ih ?_ fun s' hs' => hsegs s' (mem_cons_of_mem s hs')
    unfold pushSegment
    split_ifs with hskip hparent
    · exact h
    · exact fun c hc => h c (mem_of_mem_dropLast hc)
    · intro c hc
      rcases mem_append.mp hc with hc | hc
      · exact h c hc
      · rw [mem_singleton.mp hc]
        rw [not_or] at hskip
        exact ⟨by simp [Path.isRefused, hskip, hparent], hsegs s mem_cons_self⟩

def components (path : List Char) : List Name := (path.splitOn '/').filter (· ≠ [])

theorem components_append_slash (p q : List Char) : components (p ++ '/' :: q) = components p ++ components q := by
  rw [components, splitOn_append_cons_self, filter_append]
  rfl

theorem components_rdropWhile (root : List Char) : components (root.rdropWhile (· = '/')) = components root := by
  induction root using reverseRecOn with
  | nil => rfl
  | append_singleton root c ih =>
    rw [rdropWhile_concat]
    split_ifs with hc
    · obtain rfl : c = '/' := by simpa using hc
      rw [ih, components_append_slash]
      exact (append_nil _).symm
    · rfl

theorem components_of_grants (h : grants root abs) : components root <+: components abs := by
  unfold grants at h
  split_ifs at h with hroot
  · rw [hroot]
    exact ⟨_, rfl⟩
  · rw [← components_rdropWhile root]
    rcases Bool.or_eq_true_iff.mp h with h | h
    · rw [of_decide_eq_true h]
    · obtain ⟨rest, rfl⟩ := isPrefixOf_iff_prefix.mp h
      rw [append_assoc, singleton_append, components_append_slash]
      exact ⟨_, rfl⟩

/-- A guest: its granted root, its working directory, its directory descriptors, the paths its calls went on with. -/
structure Guest where
  root : List Char
  cwd : List Char
  dirs : Nat → Option (List Char)
  reached : List (List Char)

/-- A path is taken from the directory of a descriptor, or else from the working directory. -/
abbrev Target := Option Nat × List Char

/-- `paths` stands for every call that only passes paths on: two for `path_rename`, one for each stage of a pipeline.
`openDir` is told the slot that the directory gets, if it does, and `chdir` whether `stat` finds a directory. The call
`ruos_umount` is not among them: it compares its text with the mount points, neither resolved nor checked by `grants`. -/
inductive PathCall
  | paths (targets : List Target)
  | openDir (dirFd : Nat) (path : List Char) (slot : Option Nat)
  | chdir (path : List Char) (isDir : Bool)
  | fdReaddir (fd : Nat)
  | fdClose (fd : Nat)

namespace Guest

def start (root cwd : List Char) : Guest := ⟨root, cwd, fun _ => none, []⟩

def resolve (s : Guest) : Target → List Char
  | (none, path) => resolveCwd s.cwd path
  | (some dirFd, path) => resolveCwd ((s.dirs dirFd).getD ['/']) path

/-- The checks of a call, and the state after it if they pass. -/
def request (s : Guest) (targets : List Target) (next : Guest) : Guest :=
  if (targets.map s.resolve).all (grants s.root) then { next with reached := s.reached ++ targets.map s.resolve } else s

def step (s : Guest) : PathCall → Guest
  | .paths targets => s.request targets s
  | .openDir dirFd path slot =>
    s.request [(some dirFd, path)] { s with
      dirs := match slot with
        | some fd => Function.update s.dirs fd (some (s.resolve (some dirFd, path)))
        | none => s.dirs }
  | .chdir path isDir =>
    let newCwd := s.resolve (none, path)
    s.request [(none, path)] { s with cwd := if newCwd = ['/'] ∨ isDir then newCwd else s.cwd }
  | .fdReaddir fd =>
    match s.dirs fd with
    | some p => { s with reached := s.reached ++ [p] }
    | none => s
  | .fdClose fd => { s with dirs := Function.update s.dirs fd none }

/-- A resolved path that is the root or below it. -/
def Below (root p : List Char) : Prop := (∃ base path, p = resolveCwd base path) ∧ components root <+: components p

structure Inv (root : List Char) (s : Guest) : Prop where
  same : s.root = root
  reached : ∀ p ∈ s.reached, Below root p
  dirs : ∀ fd p, s.dirs fd = some p → Below root p

variable {s next : Guest} {targets : List Target}

theorem exists_resolve (s : Guest) (t : Target) : ∃ base path, s.resolve t = resolveCwd base path := by
  obtain ⟨dirFd, path⟩ := t
  cases dirFd <;> exact ⟨_, _, rfl⟩

theorem Inv.request (h : s.Inv root) (hroot : next.root = root)
    (hdirs : (∀ t ∈ targets, Below root (s.resolve t)) → ∀ fd p, next.dirs fd = some p → Below root p) :
    (s.request targets next).Inv root := by
  unfold Guest.request
  split_ifs with hall
  · have hbelow : ∀ t ∈ targets, Below root (s.resolve t) := by
      intro t ht
      have hgrants := all_eq_true.mp hall _ (mem_map_of_mem ht)
      rw [h.same] at hgrants
      exact ⟨s.exists_resolve t, components_of_grants hgrants⟩
    refine ⟨hroot, fun p hp => ?_, hdirs hbelow⟩
    rcases mem_append.mp hp with hp | hp
    · exact h.reached p hp
    · obtain ⟨t, ht, rfl⟩ := mem_map.mp hp
      exact hbelow t ht
  · exact h

theorem Inv.dirs_update (h : s.Inv root) {o : Option (List Char)} (ho : ∀ p, o = some p → Below root p) {fd fd' : Nat}
    {p : List Char} (hp : update s.dirs fd o fd' = some p) : Below root p := by
  by_cases heq : fd' = fd
  · subst heq
    rw [update_self] at hp
    exact ho p hp
  · rw [update_of_ne heq] at hp
    exact h.dirs fd' p hp

theorem Inv.step (h : s.Inv root) (call : PathCall) : (s.step call).Inv root := by
  cases call with
  | paths | chdir => exact h.request h.same fun _ => h.dirs
  | openDir dirFd path slot =>
    refine h.request h.same fun hbelow => ?_
    cases slot with
    | none => exact h.dirs
    | some fd =>
      intro fd' p hp
      refine h.dirs_update (fun q hq => ?_) hp
      rw [← Option.some.inj hq]
      exact hbelow _ mem_cons_self
  | fdReaddir fd =>
    simp only [Guest.step]
    split
    · rename_i p hp
      refine ⟨h.same, fun q hq => ?_, h.dirs⟩
      rcases mem_append.mp hq with hq | hq
      · exact h.reached q hq
      · rw [mem_singleton.mp hq]
        exact h.dirs fd p hp
    · exact h
  | fdClose fd => exact { h with dirs := fun fd' p => h.dirs_update (by simp) }

end Guest

end Ruos.Wasm
