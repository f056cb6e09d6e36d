import Ruos.Console.FramebufferRuns

/-! The sums of `u16` numbers that the callbacks compute: those of the cursor stay below 2^16 by themselves, and those
with a number from outside, or with the tab width, are what the specified movements depend on. -/
namespace Ruos.Console

open Lib List

namespace Grid

variable {cols rows : Nat} {g : Grid}

def newlineSums (g : Grid) : List Nat := if g.curRow = g.scrollBot then [] else [g.curRow + 1]

def putSums (g : Grid) : List Nat := if g.curCol ≥ g.cols then g.newlineSums ++ [0 + 1] else [g.curCol + 1]

def tabSums (g : Grid) : List Nat :=
  (g.curCol + 8) :: if u16 (g.curCol + 8) / 8 * 8 ≥ g.cols then g.newlineSums else []

/-- The cursor after a movement by `n`, by the letter of its escape sequence and on numbers without a bound. -/
def moved (g : Grid) (n : Nat) : Char → Option (Nat × Nat)
  | 'A' => some (g.curCol, g.curRow - n)
  | 'B' => some (g.curCol, min (g.curRow + n) (g.rows - 1))
  | 'C' => some (min (g.curCol + n) (g.cols - 1), g.curRow)
  | 'D' => some (g.curCol - n, g.curRow)
  | _ => none

/-- The region is inside the grid, and scrolling from anywhere in the cursor's row keeps the rows outside of it. -/
def RegionOk (g : Grid) : Prop :=
  g.scrollTop ≤ g.scrollBot ∧ g.scrollBot < g.rows ∧
    ∀ col ≤ g.cols, ∃ g', (g.setCursor col g.curRow).scrollUp = some g' ∧
      ∀ c < g.cols, ∀ r < g.rows, r < g.scrollTop ∨ g.scrollBot < r → g'.cell c r = g.cell c r

section

variable (hdims : Dims cols rows) (h : g.Ok cols rows)
include hdims h

theorem Ok.newlineSums_lt : ∀ n ∈ g.newlineSums, n < 2 ^ 16 := by
  have hrow := h.row
  have hrows := hdims.rows_lt
  unfold newlineSums
  split_ifs
  · simp
  · simp only [mem_singleton, forall_eq]
    omega

theorem Ok.putSums_lt : ∀ n ∈ g.putSums, n < 2 ^ 16 := by
  have hcols := hdims.cols_lt
  unfold putSums
  split_ifs with hwrap
  · simpa [or_imp, forall_and] using h.newlineSums_lt hdims
  · rw [h.cols_eq] at hwrap
    simp only [mem_singleton, forall_eq]
    omega

theorem Ok.tabSums_lt_iff : (∀ n ∈ g.tabSums, n < 2 ^ 16) ↔ g.curCol + 8 < 2 ^ 16 := by
  have hline := h.newlineSums_lt hdims
  unfold tabSums
  rw [forall_mem_cons]
  split_ifs
  · exact and_iff_left hline
  · simp

theorem Ok.regionOk : g.RegionOk := by
  refine ⟨h.top, h.rows_eq.symm ▸ h.bot, fun col hcol => ?_⟩
  have hcursor := (h.setCursor (h.cols_eq ▸ hcol) h.row).ok
  obtain ⟨g', hup, -⟩ := hcursor.scrollUp hdims
  refine ⟨g', hup, fun c hc r _ hout => ?_⟩
  have hrow : ¬ (g.scrollTop ≤ r ∧ r ≤ g.scrollBot) := by omega
  exact (hcursor.cells_of_scrollUp hup).2 c (h.cols_eq ▸ hc) r hrow

end
end Grid

namespace FramebufferConsole

variable {font : Font} {info : FbInfo} {cols rows : Nat} {s s' : FramebufferConsole}

/-- The number of a movement: an escape sequence without one, or with zero, moves by one. -/
def distance (params : List (List UInt16)) : Nat := max (param params 0 1) 1

/-- The sums of `u16` numbers that a callback computes. -/
def sums (s : FramebufferConsole) : Callback → List Nat
  | .print _ => s.grid.putSums
  | .execute byte =>
    if byte = 0x0A then s.grid.newlineSums
    else if byte = 0x09 then s.grid.tabSums
    else []
  | .csiDispatch params _ c =>
    match c with
    | 'B' => [s.grid.curRow + distance params]
    | 'C' => [s.grid.curCol + distance params]
    | _ => []
  | .ignored => []

/-- The movements down and right and the tab do not leave the numbers of 16 bits. -/
def Fits (s : FramebufferConsole) : Callback → Prop
  | .execute byte => byte = 0x09 → s.grid.curCol + 8 < 2 ^ 16
  | .csiDispatch params _ c =>
    (c = 'B' → s.grid.curRow + distance params < 2 ^ 16) ∧ (c = 'C' → s.grid.curCol + distance params < 2 ^ 16)
  | _ => True

/-- A callback moves the cursor as specified, without an overflow, and leaves a region inside the grid. -/
structure Sound (s : FramebufferConsole) (cb : Callback) (s' : FramebufferConsole) : Prop where
  clamped : ∀ params i c, cb = .csiDispatch params i c → ∀ p ∈ s.grid.moved (distance params) c, s'.grid.cursor = p
  sums_lt : ∀ n ∈ s.sums cb, n < 2 ^ 16
  region : s'.grid.RegionOk

section

variable (hdims : Dims cols rows) (h : s.Ok font info cols rows)
include hdims h

theorem Ok.sums_lt_iff (cb : Callback) : (∀ n ∈ s.sums cb, n < 2 ^ 16) ↔ s.Fits cb := by
  cases cb with
  | print ch => exact iff_of_true (h.grid.putSums_lt hdims) trivial
  | ignored => simp [sums, Fits]
  | execute byte =>
    simp only [sums, Fits]
    split_ifs with hline htab
    · exact iff_of_true (h.grid.newlineSums_lt hdims) fun htab => absurd (hline.symm.trans htab) (by decide)
    · rw [h.grid.tabSums_lt_iff hdims]
      exact ⟨fun hlt _ => hlt, fun hlt => hlt htab⟩
    · simp [htab]
  | csiDispatch params i c =>
    simp only [sums, Fits]
    split
    · simp
    · simp
    · next hdown hright => exact iff_of_true (by simp) ⟨fun hc => (hdown hc).elim, fun hc => (hright hc).elim⟩

theorem Ok.clamped {params : List (List UInt16)} {i : List UInt8} {c : Char}
    (hfits : s.Fits (.csiDispatch params i c)) (hstep : s.csiDispatch params i c = some s') :
    ∀ p ∈ s.grid.moved (distance params) c, s'.grid.cursor = p := by
  have hcols := pred16_eq hdims.cols_pos hdims.cols_lt
  have hrows := pred16_eq hdims.rows_pos hdims.rows_lt
  intro p hp
  unfold Grid.moved at hp
  split at hp <;> cases hp <;> cases hstep
  · rfl
  · change (s.grid.curCol, min (u16 (s.grid.curRow + distance params)) (pred16 s.grid.rows)) = _
    rw [u16_of_lt (hfits.1 rfl), h.grid.rows_eq, hrows]
  · change (min (u16 (s.grid.curCol + distance params)) (pred16 s.grid.cols), s.grid.curRow) = _
    rw [u16_of_lt (hfits.2 rfl), h.grid.cols_eq, hcols]
  · rfl

theorem Ok.sound_iff (cb : Callback) : ∃ s', s.callback cb = some s' ∧ (s.Sound cb s' ↔ s.Fits cb) := by
  obtain ⟨s', hstep, hok⟩ := h.callback hdims cb
  refine ⟨s', hstep, fun hsound => (h.sums_lt_iff hdims cb).mp hsound.sums_lt, fun hfits => ?_⟩
  constructor
  · rintro params i c rfl
    exact h.clamped hdims hfits hstep
  · exact (h.sums_lt_iff hdims cb).mpr hfits
  · exact hok.grid.regionOk hdims

end

/-- In every state that the console reaches, a callback does as specified exactly if its numbers fit. -/
theorem callback_sound_iff_fits (font : Font) (info : FbInfo) (fg bg : Rgb) (hcols : info.width / font.gw < 2 ^ 16)
    (hrows : info.height / font.gh < 2 ^ 16) (calls : List Call) (callbacks : List Callback) (cb : Callback) :
    ∃ s t u, (new font info fg bg).bind (fun s => exec (call font) s calls) = some s ∧
      exec callback s callbacks = some t ∧ t.callback cb = some u ∧ (t.Sound cb u ↔ t.Fits cb) := by
  obtain ⟨hdims, s₀, hnew, hok₀⟩ := @new_spec font info fg bg hcols hrows
  obtain ⟨s, hs, hok⟩ := exec_total (fun _ c h => Ok.call hdims h c) hok₀ calls
  obtain ⟨t, ht, hok'⟩ := hok.callbacks hdims callbacks
  obtain ⟨u, hu, hiff⟩ := hok'.sound_iff hdims cb
  exact ⟨s, t, u, by rw [hnew]; exact hs, ht, hu, hiff⟩

theorem cursor_down_one_is_sound : ∃ s t u, (new blankFont vgaInfo white black).bind (fun s =>
        exec (call blankFont) s []) = some s ∧ exec callback s [] = some t ∧
      t.callback (.csiDispatch [[1]] [] 'B') = some u ∧
      (t.Sound (.csiDispatch [[1]] [] 'B') u ↔ t.Fits (.csiDispatch [[1]] [] 'B')) :=
  callback_sound_iff_fits blankFont vgaInfo white black (by decide) (by decide) [] [] _

/-- On a screen of twenty rows the cursor goes to the second row, and then up by one instead of down to the last. -/
theorem cursor_down_wraps_around : ∃ s t u, new blankFont vgaInfo white black = some s ∧
    exec callback s [.csiDispatch [[2]] [] 'H'] = some t ∧ t.callback (.csiDispatch [[65535]] [] 'B') = some u ∧
    t.grid.rows = 20 ∧ t.grid.cursor = (0, 1) ∧ u.grid.cursor = (0, 0) ∧
    ¬ t.Sound (.csiDispatch [[65535]] [] 'B') u := by
  obtain ⟨hdims, s, hnew, hok⟩ := @new_spec blankFont vgaInfo white black (by decide) (by decide)
  have hrows : s.grid.rows = 20 := hok.grid.rows_eq
  have hpred : pred16 20 = 19 := by decide
  refine ⟨s, s.setGrid (s.grid.goto 0 1), _, hnew, rfl, rfl, hrows, ?_, ?_, fun hsound => ?_⟩
  · simp [setGrid, Grid.cursor, Grid.goto, Grid.setCursor, hrows, hpred]
  · simp [setGrid, Grid.cursor, Grid.goto, Grid.moveDown, Grid.setCursor, hrows, hpred, u16, param]
  · have hlt := hsound.sums_lt _ (mem_singleton_self _)
    simp [setGrid, Grid.goto, Grid.setCursor, hrows, hpred, distance, param] at hlt

end FramebufferConsole
end Ruos.Console
