import Mathlib.Data.List.Basic

/-! Finite runs of a partial step function, and invariants over runs whose steps all
meet a guard. -/
namespace Ruos.Lib

open List Option

variable {σ ε : Type*}

/-- `none` as the result of a step means that the event is not enabled. -/
def exec (step : σ → ε → Option σ) : σ → List ε → Option σ
  | s, [] => some s
  | s, e :: es => (step s e).bind fun s' => exec step s' es

/-- Every step taken along the run meets the guard in the state before it. -/
def Guarded (step : σ → ε → Option σ) (guard : σ → ε → Prop) : σ → List ε → Prop
  | _, [] => True
  | s, e :: es => guard s e ∧ ∀ s', step s e = some s' → Guarded step guard s' es

@[simp] theorem exec_nil (step : σ → ε → Option σ) (s : σ) : exec step s [] = some s := rfl

variable {step : σ → ε → Option σ} {s t : σ} {es : List ε}

theorem exec_cons {e : ε} : exec step s (e :: es) = some t ↔ ∃ s', step s e = some s' ∧ exec step s' es = some t := by
  simp only [exec, bind_eq_some_iff]

theorem exec_some (f : σ → ε → σ) : exec (fun s e => some (f s e)) s es = some (es.foldl f s) := by
  induction es generalizing s with
  | nil => rfl
  | cons e es ih => exact ih

theorem exec_append {s t u : σ} {es fs : List ε} (h : exec step s es = some t) (h' : exec step t fs = some u) :
    exec step s (es ++ fs) = some u := by
  induction es generalizing s with
  | nil => exact some.inj h ▸ h'
  | cons e es ih =>
    obtain ⟨s', hs', ht⟩ := exec_cons.mp h
    exact exec_cons.mpr ⟨s', hs', ih ht⟩

/-- What holds in every state that a run ends in holds in the one that it ends in. -/
theorem exists_end {p q r : σ → Prop} (h : ∃ s, p s ∧ q s) (hr : ∀ s, p s → r s) : ∃ s, p s ∧ q s ∧ r s := by
  obtain ⟨s, hp, hq⟩ := h
  exact ⟨s, hp, hq, hr s hp⟩

variable {guard : σ → ε → Prop}

theorem Guarded.cons {s s' : σ} {e : ε} (hg : guard s e) (hs : step s e = some s') (h : Guarded step guard s' es) :
    Guarded step guard s (e :: es) := by
  refine ⟨hg, fun t ht => ?_⟩
  rw [hs] at ht
  exact some.inj ht ▸ h

instance Guarded.decidable (step : σ → ε → Option σ) (guard : σ → ε → Prop) [∀ s e, Decidable (guard s e)] :
    ∀ s es, Decidable (Guarded step guard s es)
  | _, [] => isTrue trivial
  | s, e :: es =>
    match h : step s e with
    | none => decidable_of_iff (guard s e) ⟨fun hg => ⟨hg, fun s' hs => by simp [h] at hs⟩, And.left⟩
    | some s' =>
      have := Guarded.decidable step guard s' es
      decidable_of_iff (guard s e ∧ Guarded step guard s' es)
        ⟨fun hg => .cons hg.1 h hg.2, fun hg => ⟨hg.1, hg.2 s' h⟩⟩

theorem guarded_of_forall (h : ∀ e ∈ es, ∀ s, guard s e) (s : σ) : Guarded step guard s es := by
  induction es generalizing s with
  | nil => trivial
  | cons e es ih =>
    exact ⟨h e (by simp) s, fun s' _ => ih (fun e' he' => h e' (mem_cons_of_mem e he')) s'⟩

variable {s : σ}

theorem Guarded.and {guard guard' : σ → ε → Prop} (h : Guarded step guard s es) (h' : Guarded step guard' s es) :
    Guarded step (fun s e => guard s e ∧ guard' s e) s es := by
  induction es generalizing s with
  | nil => trivial
  | cons e es ih => exact ⟨⟨h.1, h'.1⟩, fun s' hs => ih (h.2 s' hs) (h'.2 s' hs)⟩

variable {I : σ → Prop}

theorem exec_invariant (hstep : ∀ s e s', I s → guard s e → step s e = some s' → I s') (hs : I s)
    (hg : Guarded step guard s es) (he : exec step s es = some t) : I t := by
  induction es generalizing s with
  | nil =>
    have : s = t := some.inj he
    exact this ▸ hs
  | cons e es ih =>
    obtain ⟨s', hs', ht⟩ := exec_cons.mp he
    exact ih (hstep s e s' hs hg.1 hs') (hg.2 s' hs') ht

theorem foldl_invariant {f : σ → ε → σ} (hstep : ∀ s e, I s → guard s e → I (f s e)) (hs : I s)
    (hg : Guarded (fun s e => some (f s e)) guard s es) : I (es.foldl f s) :=
  exec_invariant (fun s e _ hI hge heq => some.inj heq ▸ hstep s e hI hge) hs hg (exec_some f)

theorem exec_preserves (hstep : ∀ s e s', I s → step s e = some s' → I s') (hs : I s) (he : exec step s es = some t) :
    I t :=
  exec_invariant (fun s e s' hI (_ : True) => hstep s e s' hI) hs (guarded_of_forall (fun _ _ _ => trivial) s) he

/-- If every step is enabled and preserves the invariant, every run is possible and preserves it. -/
theorem exec_total (hstep : ∀ s e, I s → ∃ s', step s e = some s' ∧ I s') (hs : I s) (es : List ε) :
    ∃ t, exec step s es = some t ∧ I t := by
  induction es generalizing s with
  | nil => exact ⟨s, rfl, hs⟩
  | cons e es ih =>
    obtain ⟨s', he, hs'⟩ := hstep s e hs
    obtain ⟨t, ht, hI⟩ := ih hs'
    exact ⟨t, exec_cons.mpr ⟨s', he, ht⟩, hI⟩

/-- A measure that no step increases, and that the events of one kind decrease, bounds how many of them there are. -/
theorem exec_countP_le {p : ε → Bool} {μ : σ → Nat}
    (hstep : ∀ s e s', step s e = some s' → (if p e then 1 else 0) + μ s' ≤ μ s) (he : exec step s es = some t) :
    es.countP p + μ t ≤ μ s := by
  induction es generalizing s with
  | nil =>
    have : s = t := some.inj he
    simp [this]
  | cons e es ih =>
    obtain ⟨s', hs', ht⟩ := exec_cons.mp he
    have hrest := ih ht
    have hfirst := hstep s e s' hs'
    rw [countP_cons]
    omega

theorem exec_length_le {p : ε → Prop} {μ : σ → Nat}
    (hstep : ∀ s e s', I s → p e → step s e = some s' → I s' ∧ μ s' < μ s) (hs : I s) (hp : ∀ e ∈ es, p e)
    (he : exec step s es = some t) : es.length ≤ μ s := by
  induction es generalizing s with
  | nil => exact Nat.zero_le _
  | cons e es ih =>
    obtain ⟨s', hs', ht⟩ := exec_cons.mp he
    obtain ⟨hI, hlt⟩ := hstep s e s' hs (hp e mem_cons_self) hs'
    have hrest := ih hI (fun e' he' => hp e' (mem_cons_of_mem e he')) ht
    rw [length_cons]
    omega

variable {τ ρ : Type*}

/-- The replies of a run and the state it ends in; `none` if some step does not return. -/
def trace (step : σ → ε → Option (ρ × σ)) : σ → List ε → Option (List ρ × σ)
  | s, [] => some ([], s)
  | s, e :: es => (step s e).bind fun x => (trace step x.2 es).map fun y => (x.1 :: y.1, y.2)

variable {step : σ → ε → Option (ρ × σ)}

theorem trace_invariant (hstep : ∀ s e r s', I s → step s e = some (r, s') → I s') {rs : List ρ} (hs : I s)
    (ht : trace step s es = some (rs, t)) : I t := by
  induction es generalizing s rs with
  | nil =>
    obtain ⟨-, rfl⟩ : [] = rs ∧ s = t := by simpa [trace] using ht
    exact hs
  | cons e es ih =>
    obtain ⟨⟨r, s'⟩, hs', ht⟩ := bind_eq_some_iff.mp ht
    obtain ⟨⟨rs', t'⟩, ht', heq⟩ := map_eq_some_iff.mp ht
    obtain ⟨-, rfl⟩ : r :: rs' = rs ∧ t' = t := by simpa using heq
    exact ih (hstep s e r s' hs hs') ht'

/-- If every step from a state that meets the invariant is the abstract step on its
abstraction, with the same reply, then so is every run. -/
theorem trace_simulates {astep : τ → ε → Option (ρ × τ)} {abs : σ → τ}
    (hI : ∀ s e r s', I s → step s e = some (r, s') → I s')
    (hsim : ∀ s e, I s → astep (abs s) e = (step s e).map fun x => (x.1, abs x.2)) (hs : I s) (es : List ε) :
    trace astep (abs s) es = (trace step s es).map fun x => (x.1, abs x.2) := by
  induction es generalizing s with
  | nil => rfl
  | cons e es ih =>
    simp only [trace, hsim s e hs]
    cases hstep : step s e with
    | none => rfl
    | some x =>
      simp only [map_some, bind_some, ih (hI s e x.1 x.2 hs hstep), Option.map_map]
      rfl

/-- Every step of a run is one that `Q` allows on the abstract side, from `a` on, with the same reply; `Q` also sees
the state that the step ends in. -/
def Follows (step : σ → ε → ρ × σ) (Q : τ → ε → ρ → τ → σ → Prop) : σ → τ → List ε → Prop
  | _, _, [] => True
  | s, a, e :: es => ∃ a', Q a e (step s e).1 a' (step s e).2 ∧ Follows step Q (step s e).2 a' es

/-- A relation that every guarded step keeps, with a step of the abstract side, carries guarded runs over. -/
theorem follows_of_simulation {step : σ → ε → ρ × σ} {Q : τ → ε → ρ → τ → σ → Prop} {R : σ → τ → Prop}
    (hstep : ∀ s a e, R s a → guard s e → ∃ a', Q a e (step s e).1 a' (step s e).2 ∧ R (step s e).2 a') {a : τ}
    (hs : R s a) (hg : Guarded (fun s e => some (step s e).2) guard s es) : Follows step Q s a es := by
  induction es generalizing s a with
  | nil => trivial
  | cons e es ih =>
    obtain ⟨a', hQ, hR⟩ := hstep s a e hs hg.1
    exact ⟨a', hQ, ih hR (hg.2 _ rfl)⟩

end Ruos.Lib
