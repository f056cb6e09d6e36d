import Mathlib.Logic.Basic

/-! Computations with a state and an error, against the abstract values their states stand for. -/
namespace Ruos.Lib

variable {ε σ A α β : Type}

def outcome (r : Except ε α) (s : σ) : EStateM.Result ε σ α :=
  match r with
  | .ok a => .ok a s
  | .error e => .error e s

@[simp] theorem outcome_ok (c : α) (s : σ) : outcome (.ok c : Except ε α) s = .ok c s := rfl

@[simp] theorem outcome_error (e : ε) (s : σ) : outcome (.error e : Except ε α) s = .error e s := rfl

variable {s s' : σ}

theorem outcome_inj {r r' : Except ε α} (h : outcome r s = outcome r' s') : r = r' ∧ s = s' := by
  cases r <;> cases r' <;> cases h <;> exact ⟨rfl, rfl⟩

/-- A computation as a step function: its result and the state it leaves. -/
def reply (x : EStateM ε σ α) (s : σ) : Except ε α × σ :=
  match x s with
  | .ok a s' => (.ok a, s')
  | .error e s' => (.error e, s')

theorem eq_outcome_reply (x : EStateM ε σ α) (s : σ) : x s = outcome (reply x s).1 (reply x s).2 := by
  rw [reply]
  cases x s <;> rfl

variable {x : EStateM ε σ α}

theorem reply_eq {r : Except ε α} (h : x s = outcome r s') : reply x s = (r, s') := by
  rw [reply, h]
  cases r <;> rfl

/-- A result that passes a check is a result. -/
theorem exists_ok {p : α → σ → Bool} (h : (match x s with | .ok a t => p a t | .error _ _ => false) = true) :
    ∃ a t, x s = .ok a t ∧ p a t = true := by
  split at h
  next a t hx => exact ⟨a, t, hx, h⟩
  next => cases h

def mapErr {ε' : Type} (f : ε → ε') (x : EStateM ε σ α) : EStateM ε' σ α := fun s =>
  match x s with
  | .ok a s' => .ok a s'
  | .error e s' => .error (f e) s'

/-- `if c { return Err(e); }`. -/
def failIf (c : Prop) [Decidable c] (e : ε) : EStateM ε σ Unit := if c then throw e else pure ()

variable {f : α → EStateM ε σ β}

theorem bind_of_ok {s t : σ} {a : α} (hx : x s = .ok a t) : (x >>= f) s = f a t := by
  change EStateM.bind x f s = f a t
  rw [EStateM.bind, hx]

theorem bind_eq_ok {c : β} (h : (x >>= f) s = .ok c s') : ∃ a t, x s = .ok a t ∧ f a t = .ok c s' := by
  change EStateM.bind x f s = _ at h
  unfold EStateM.bind at h
  cases hx : x s with
  | ok a t => exact ⟨a, t, rfl, by simpa only [hx] using h⟩
  | error e t => simp only [hx] at h; cases h

/-- From every state that stands for `a`, the computation returns `r` in a state that
stands for `a'`. -/
def Runs (R : σ → A → Prop) (x : EStateM ε σ α) (a : A) (r : Except ε α) (a' : A) : Prop :=
  ∀ s, R s a → ∃ s', x s = outcome r s' ∧ R s' a'

namespace Runs

variable {R : σ → A → Prop} {x : EStateM ε σ α} {f : α → EStateM ε σ β} {a a' a'' : A} {c : α} {e : ε}
  {r : Except ε β}

theorem pure (c : α) (a : A) : Runs R (pure c : EStateM ε σ α) a (.ok c) a :=
  fun s hs => ⟨s, rfl, hs⟩

theorem throw (e : ε) (a : A) : Runs R (throw e : EStateM ε σ α) a (.error e) a :=
  fun s hs => ⟨s, rfl, hs⟩

theorem bind (hx : Runs R x a (.ok c) a') (hf : Runs R (f c) a' r a'') : Runs R (x >>= f) a r a'' := by
  intro s hs
  obtain ⟨s', hxs, hs'⟩ := hx s hs
  obtain ⟨s'', hfs, hs''⟩ := hf s' hs'
  exact ⟨s'', (bind_of_ok hxs).trans hfs, hs''⟩

theorem bind_error (hx : Runs R x a (.error e) a') : Runs R (x >>= f) a (.error e) a' := by
  intro s hs
  obtain ⟨s', hxs, hs'⟩ := hx s hs
  refine ⟨s', ?_, hs'⟩
  change EStateM.bind x f s = _
  simp only [EStateM.bind, hxs, outcome_error]

theorem get_bind {f : σ → EStateM ε σ β} (hf : ∀ s, R s a → Runs R (f s) a r a') : Runs R (get >>= f) a r a' := by
  intro s hs
  obtain ⟨s', hfs, hs'⟩ := hf s hs s hs
  exact ⟨s', hfs, hs'⟩

theorem failIf_false {p : Prop} [Decidable p] (h : ¬ p) (e : ε) (a : A) : Runs R (failIf p e) a (.ok ()) a := by
  rw [failIf, if_neg h]
  exact Runs.pure () a

theorem failIf_true {p : Prop} [Decidable p] (h : p) (e : ε) (a : A) : Runs R (failIf p e) a (.error e) a := by
  rw [failIf, if_pos h]
  exact Runs.throw e a

theorem map {g : α → β} (hx : Runs R x a (.ok c) a') : Runs R (g <$> x) a (.ok (g c)) a' := by
  intro s hs
  obtain ⟨s', hxs, hs'⟩ := hx s hs
  refine ⟨s', ?_, hs'⟩
  change EStateM.map g x s = _
  simp only [EStateM.map, hxs, outcome_ok]

theorem map_error {g : α → β} (hx : Runs R x a (.error e) a') : Runs R (g <$> x) a (.error e) a' := by
  intro s hs
  obtain ⟨s', hrun, hs'⟩ := hx s hs
  refine ⟨s', ?_, hs'⟩
  change EStateM.map g x s = _
  rw [EStateM.map, hrun]
  rfl

theorem mapErr {ε' : Type} {g : ε → ε'} (hx : Runs R x a (.ok c) a') : Runs R (mapErr g x) a (.ok c) a' := by
  intro s hs
  obtain ⟨s', hxs, hs'⟩ := hx s hs
  exact ⟨s', by simp only [Lib.mapErr, hxs, outcome_ok], hs'⟩

theorem of_ok {r : Except ε α} (hx : Runs R x a r a') (hs : R s a) (heq : x s = .ok c s') : r = .ok c ∧ R s' a' := by
  obtain ⟨t, hxs, ht⟩ := hx s hs
  obtain ⟨rfl, rfl⟩ := outcome_inj (r := .ok c) (heq.symm.trans hxs)
  exact ⟨rfl, ht⟩

end Runs

/-- From every state that stands for `a`, the computation returns; what it returns and what
its last state stands for are related by `Q`. -/
def Meets (R : σ → A → Prop) (x : EStateM ε σ α) (a : A) (Q : Except ε α → A → Prop) : Prop :=
  ∀ s, R s a → ∃ r s' a', x s = outcome r s' ∧ R s' a' ∧ Q r a'

namespace Meets

variable {R : σ → A → Prop} {x : EStateM ε σ α} {f : α → EStateM ε σ β} {a a' : A} {c : α} {e : ε}
  {P P' : Except ε α → A → Prop} {Q : Except ε β → A → Prop}

theorem of_runs {r : Except ε α} (h : Runs R x a r a') (hP : P r a') : Meets R x a P := by
  intro s hs
  obtain ⟨s', hx, hs'⟩ := h s hs
  exact ⟨r, s', a', hx, hs', hP⟩

theorem mono (h : Meets R x a P) (himp : ∀ r a', P r a' → P' r a') : Meets R x a P' := by
  intro s hs
  obtain ⟨r, s', a', hx, hs', hP⟩ := h s hs
  exact ⟨r, s', a', hx, hs', himp r a' hP⟩

theorem bind (hx : Meets R x a P) (hok : ∀ c a', P (.ok c) a' → Meets R (f c) a' Q)
    (herr : ∀ e a', P (.error e) a' → Q (.error e) a') : Meets R (x >>= f) a Q := by
  intro s hs
  obtain ⟨r, s', a', hxs, hs', hP⟩ := hx s hs
  cases r with
  | ok c =>
    obtain ⟨r, s'', a'', hfs, hs'', hQ⟩ := hok c a' hP s' hs'
    exact ⟨r, s'', a'', (bind_of_ok hxs).trans hfs, hs'', hQ⟩
  | error e =>
    refine ⟨.error e, s', a', ?_, hs', herr e a' hP⟩
    change EStateM.bind x f s = _
    simp only [EStateM.bind, hxs, outcome_error]

theorem bind_runs (hx : Runs R x a (.ok c) a') (hf : Meets R (f c) a' Q) : Meets R (x >>= f) a Q := by
  intro s hs
  obtain ⟨s', hxs, hs'⟩ := hx s hs
  obtain ⟨r, s'', a'', hfs, hs'', hQ⟩ := hf s' hs'
  exact ⟨r, s'', a'', (bind_of_ok hxs).trans hfs, hs'', hQ⟩

theorem map {g : α → β} (hx : Meets R x a P) : Meets R (g <$> x) a fun r a' => ∃ r₀, P r₀ a' ∧ r = r₀.map g := by
  intro s hs
  obtain ⟨r, s', a', hrun, hs', hP⟩ := hx s hs
  refine ⟨r.map g, s', a', ?_, hs', r, hP, rfl⟩
  change EStateM.map g x s = _
  rw [EStateM.map, hrun]
  cases r <;> rfl

theorem of_eq {r : Except ε α} (hx : Meets R x a P) (hs : R s a) (heq : x s = outcome r s') : ∃ a', R s' a' ∧ P r a' := by
  obtain ⟨r', t, a', hxs, ht, hP⟩ := hx s hs
  obtain ⟨rfl, rfl⟩ := outcome_inj (heq.symm.trans hxs)
  exact ⟨a', ht, hP⟩

theorem of_ok (hx : Meets R x a P) (hs : R s a) (heq : x s = .ok c s') : ∃ a', R s' a' ∧ P (.ok c) a' :=
  of_eq hx hs heq

theorem of_error {s s' : σ} (hx : Meets R x a P) (hs : R s a) (heq : x s = .error e s') :
    ∃ a', R s' a' ∧ P (.error e) a' :=
  of_eq hx hs heq

end Meets
end Ruos.Lib
