import Mathlib.Data.List.Basic
import Mathlib.Logic.Basic

/-! Painting the cells of a list with a sequence of items, cell by cell, and an image of a view that is kept up to date
by repainting what is marked dirty. -/
namespace Ruos.Lib

open List

variable {ι κ α π : Type*} {mark mark' : ι → π → α → α} {p : π} {xs ys : List ι}

def paint (mark : ι → π → α → α) (xs : List ι) (p : π) (a : α) : α := xs.foldl (fun a x => mark x p a) a

theorem mapIdx_eq_self {f : Nat → α → α} {l : List α} (h : ∀ i a, f i a = a) : l.mapIdx f = l := by
  apply ext_getElem?
  intro i
  rw [getElem?_mapIdx]
  cases l[i]? with
  | none => rfl
  | some a => rw [Option.map_some, h i a]

theorem foldl_mapIdx (mark : ι → Nat → α → α) (xs : List ι) (l : List α) :
    xs.foldl (fun l x => l.mapIdx (mark x)) l = l.mapIdx fun i a => paint mark xs i a := by
  induction xs generalizing l with
  | nil => exact (mapIdx_eq_self fun _ _ => rfl).symm
  | cons x xs ih =>
    rw [foldl_cons, ih, mapIdx_mapIdx]
    rfl

theorem paint_filter {q : ι → Bool} (h : ∀ x ∈ xs, q x = false → ∀ a, mark x p a = a) (a : α) :
    paint mark (xs.filter q) p a = paint mark xs p a := by
  induction xs generalizing a with
  | nil => rfl
  | cons x xs ih =>
    have hrest := ih fun y hy => h y (mem_cons_of_mem x hy)
    cases hq : q x with
    | true =>
      rw [filter_cons_of_pos hq]
      exact hrest _
    | false =>
      rw [filter_cons_of_neg (Bool.eq_false_iff.mp hq), hrest]
      rw [paint, paint, foldl_cons, h x mem_cons_self hq]

theorem paint_congr {name : ι → κ} {name' : ι → κ} (h : xs.map name = ys.map name')
    (hmark : ∀ x ∈ xs, ∀ y ∈ ys, name x = name' y → ∀ a, mark x p a = mark' y p a) (a : α) :
    paint mark xs p a = paint mark' ys p a := by
  induction xs generalizing ys a with
  | nil =>
    rw [map_nil, eq_comm, map_eq_nil_iff] at h
    rw [h]
    rfl
  | cons x xs ih =>
    cases ys with
    | nil => cases h
    | cons y ys =>
      rw [map_cons, map_cons, List.cons.injEq] at h
      rw [paint, foldl_cons, hmark x mem_cons_self y mem_cons_self h.1]
      exact ih h.2 (fun x hx y hy => hmark x (mem_cons_of_mem _ hx) y (mem_cons_of_mem _ hy)) _
end Ruos.Lib

namespace Ruos.Lib

variable {ι ν π : Type*} {view view' view'' : ι → ν} {dirty dirty' dirty'' : ι → Prop} {render : ν → ι → π}
  {image image' : ι → π}

/-- What is not dirty afterwards was not dirty before and has not changed. -/
def Covers (view view' : ι → ν) (dirty dirty' : ι → Prop) : Prop := ∀ i, ¬ dirty' i → ¬ dirty i ∧ view' i = view i

def UpToDate (render : ν → ι → π) (view : ι → ν) (dirty : ι → Prop) (image : ι → π) : Prop :=
  ∀ i, ¬ dirty i → image i = render (view i) i

theorem Covers.refl (view : ι → ν) (dirty : ι → Prop) : Covers view view dirty dirty := fun _ h => ⟨h, rfl⟩

theorem Covers.trans (h : Covers view view' dirty dirty') (h' : Covers view' view'' dirty' dirty'') :
    Covers view view'' dirty dirty'' := fun i hi =>
  have hnext := h' i hi
  have hfirst := h i hnext.1
  ⟨hfirst.1, hnext.2.trans hfirst.2⟩

theorem covers_of_all (h : ∀ i, dirty' i) : Covers view view' dirty dirty' := fun i hi => absurd (h i) hi

theorem UpToDate.of_covers (h : UpToDate render view dirty image) (hc : Covers view view' dirty dirty') :
    UpToDate render view' dirty' image := fun i hi => by
  obtain ⟨hclean, hview⟩ := hc i hi
  rw [h i hclean, hview]

theorem UpToDate.repaint (h : UpToDate render view dirty image) (hpaint : ∀ i, dirty i → image' i = render (view i) i)
    (hkeep : ∀ i, ¬ dirty i → image' i = image i) (i : ι) : image' i = render (view i) i := by
  by_cases hi : dirty i
  · exact hpaint i hi
  · rw [hkeep i hi, h i hi]

theorem Covers.comp {κ : Type*} (h : Covers view view' dirty dirty') (f : κ → ι) :
    Covers (fun k => view (f k)) (fun k => view' (f k)) (fun k => dirty (f k)) fun k => dirty' (f k) :=
  fun k hk => h (f k) hk

end Ruos.Lib
