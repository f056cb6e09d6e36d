import Ruos.Wasm.JobQueue

/-! Requests that are posted one at a time: each of them is executed once, and its future returns its exit code. -/
namespace Ruos.Wasm

open Lib List Poster Function Option

/-- The request of a future that was polled and has not returned. -/
def Poster.inFlight {ρ : Type} : Poster ρ → Option Nat
  | .idle | .fresh _ => none
  | .cleared j | .reset j => some j.id
  | .posted id | .checking id | .ready id | .leaving id | .parked id => some id

def Poster.request {ρ : Type} : Poster ρ → Option Nat
  | .fresh j => some j.id
  | p => p.inFlight

def Poster.staged {ρ : Type} : Poster ρ → Option Nat
  | .posted id | .checking id | .ready id | .leaving id | .parked id => some id
  | _ => none

theorem Poster.request_of_inFlight {ρ : Type} {p : Poster ρ} {k : Nat} (h : p.inFlight = some k) :
    p.request = some k := by
  cases p <;> simp_all [inFlight, request]

theorem Poster.inFlight_of_staged {ρ : Type} {p : Poster ρ} {k : Nat} (h : p.staged = some k) :
    p.inFlight = some k := by
  cases p <;> simp_all [staged, inFlight]

namespace JobQueue

variable {ρ : Type} {s s' : JobQueue ρ} {t t' k : Nat} {e : JobStep ρ}

/-- A future is polled for the first time only when no other one is under way, and nobody looks in vain for a waker
that is about to be left. -/
def InTurn (s : JobQueue ρ) : JobStep ρ → Prop
  | .advance t =>
    match s.posters t with
    | .fresh _ => ∀ t', (s.posters t').inFlight = none
    | .posted _ => Mailbox.InTime .slot s.mailbox (.wake t)
    | _ => True
  | .work =>
    match s.worker with
    | .notifying id => ∀ t, s.posters t = .leaving id → s.posterWoken t = true
    | _ => True
  | _ => True

def Internal : JobStep ρ → Prop
  | .post .. | .rouse _ | .rouseWorker => False
  | _ => True

/-- Nothing more happens unless something is posted, or a task is woken by others. -/
def Quiescent (s : JobQueue ρ) : Prop := ∀ e, Internal e → s.step e = none

/-- No request is executed twice, a future returns the exit code of its own request; and unless more is posted, the
futures and the worker come to an end, and then every request was executed and every future has returned. -/
structure Served (s : JobQueue ρ) : Prop where
  once : (s.executed.map Prod.fst).Nodup
  own : ∀ x ∈ s.resolved, x ∈ s.executed
  ends : ∃ n, ∀ es s', (∀ e ∈ es, Internal e) → exec step s es = some s' → es.length ≤ n
  all : s.Quiescent → ∀ k < s.next, ∃ code, (k, code) ∈ s.executed ∧ (k, code) ∈ s.resolved

def Resting : Worker ρ → Prop
  | .polling | .leaving | .parked | .notifying _ => True
  | _ => False

def Unexecuted (s : JobQueue ρ) (k : Nat) : Prop := ∀ x ∈ s.executed, x.1 ≠ k

inductive Stage (s : JobQueue ρ) (k : Nat) : Prop
  | waiting (j : Job ρ) (hid : j.id = k) (hpend : s.pending = some j) (hrest : Resting s.worker)
      (hdone : s.done = false) (hnew : s.Unexecuted k)
  | executing (j : Job ρ) (hid : j.id = k) (hpend : s.pending = none) (hw : s.worker = .executing j)
      (hdone : s.done = false) (hnew : s.Unexecuted k)
  | storing (code : Int) (hpend : s.pending = none) (hw : s.worker = .storing k code) (hdone : s.done = false)
      (hex : (k, code) ∈ s.executed)
  | finishing (hpend : s.pending = none) (hw : s.worker = .finishing k) (hdone : s.done = false)
      (hex : (k, s.result) ∈ s.executed)
  | finished (hpend : s.pending = none) (hrest : Resting s.worker) (hdone : s.done = true)
      (hex : (k, s.result) ∈ s.executed)

/-- The worker has looked for the waker of the future, after the request was executed. -/
def Notified (s : JobQueue ρ) (k : Nat) : Prop := s.done = true ∧ s.worker ≠ .notifying k

def PosterOk (s : JobQueue ρ) (t : Nat) : Poster ρ → Prop
  | .idle | .fresh _ => False
  | .cleared j | .reset j => s.pending = none ∧ Resting s.worker ∧ s.done = false ∧ s.Unexecuted j.id
  | .posted k | .checking k => s.Stage k
  | .ready k => s.Stage k ∧ s.done = true
  | .leaving k => s.Stage k ∧ (s.Notified k → s.posterWoken t = true)
  | .parked k => s.Stage k ∧ (s.Notified k → s.posterWoken t = true) ∧ (s.shellWaker = some t ∨ s.posterWoken t = true)

inductive Turn (s : JobQueue ρ) : Prop
  | free (hposters : ∀ t, (s.posters t).inFlight = none) (hpend : s.pending = none) (hrest : Resting s.worker)
  | taken (t : Nat) (hposters : ∀ t', t' ≠ t → (s.posters t').inFlight = none) (hok : s.PosterOk t (s.posters t))

structure Numbered (s : JobQueue ρ) : Prop where
  lt : ∀ t k, (s.posters t).request = some k → k < s.next
  distinct : ∀ t t' k, (s.posters t).request = some k → (s.posters t').request = some k → t = t'
  accounted : ∀ k < s.next, (∃ t, (s.posters t).request = some k) ∨ ∃ code, (k, code) ∈ s.resolved
  executed_lt : ∀ x ∈ s.executed, x.1 < s.next
  fresh : ∀ t j, s.posters t = .fresh j → s.Unexecuted j.id
  once : (s.executed.map Prod.fst).Nodup
  own : ∀ x ∈ s.resolved, x ∈ s.executed

structure Orderly (s : JobQueue ρ) : Prop where
  turn : s.Turn
  numbered : s.Numbered
  awake : s.mailbox.Awake .slot

section

variable (h : s.Numbered)
include h

theorem Numbered.congr (heq : (s'.posters, s'.next, s'.executed, s'.resolved) =
    (s.posters, s.next, s.executed, s.resolved)) : s'.Numbered := by
  simp only [Prod.mk.injEq] at heq
  obtain ⟨hposters, hnext, hex, hres⟩ := heq
  obtain ⟨hlt, hdistinct, hacc, hexlt, hfresh, honce, hown⟩ := h
  refine ⟨?_, ?_, ?_, ?_, ?_, ?_, ?_⟩ <;> simpa only [Unexecuted, hposters, hnext, hex, hres]

theorem Numbered.move {p : Poster ρ} (hreq : p.request = (s.posters t).request) (hfresh : ∀ j, p ≠ .fresh j) :
    (s.setPoster t p).Numbered := by
  have hrequest : ∀ t', ((s.setPoster t p).posters t').request = (s.posters t').request := by
    intro t'
    by_cases heq : t' = t
    · rw [heq, posters_setPoster_self, hreq]
    · rw [posters_setPoster_of_ne heq]
  obtain ⟨hlt, hdistinct, hacc, hexlt, hfresh', honce, hown⟩ := h
  refine ⟨?_, ?_, ?_, hexlt, ?_, honce, hown⟩
  · simpa only [hrequest]
  · simpa only [hrequest]
  · simpa only [hrequest]
  · intro t' j hj
    by_cases heq : t' = t
    · rw [heq, posters_setPoster_self] at hj
      exact absurd hj (hfresh j)
    · rw [posters_setPoster_of_ne heq] at hj
      exact hfresh' t' j hj

theorem Numbered.post (hidle : s.posters t = .idle) (r : ρ) :
    { s.setPoster t (.fresh ⟨s.next, r⟩) with next := s.next + 1 : JobQueue ρ }.Numbered := by
  have hrequest : ∀ t' k, ((s.setPoster t (.fresh ⟨s.next, r⟩)).posters t').request = some k ↔
      (t' = t ∧ k = s.next) ∨ (s.posters t').request = some k := by
    intro t' k
    by_cases heq : t' = t
    · subst heq
      simp [hidle, request, inFlight, eq_comm]
    · simp [heq]
  constructor
  · intro t' k hk
    rcases (hrequest t' k).mp hk with ⟨-, rfl⟩ | hk
    · exact Nat.lt_succ_self _
    · exact Nat.lt_succ_of_lt (h.lt t' k hk)
  · intro t₁ t₂ k hk₁ hk₂
    rcases (hrequest t₁ k).mp hk₁ with ⟨rfl, rfl⟩ | hk₁
    · rcases (hrequest t₂ _).mp hk₂ with ⟨rfl, -⟩ | hk₂
      · rfl
      · exact absurd (h.lt t₂ _ hk₂) (Nat.lt_irrefl _)
    · rcases (hrequest t₂ _).mp hk₂ with ⟨-, rfl⟩ | hk₂
      · exact absurd (h.lt t₁ _ hk₁) (Nat.lt_irrefl _)
      · exact h.distinct t₁ t₂ k hk₁ hk₂
  · intro k hk
    rcases Nat.lt_succ_iff_lt_or_eq.mp hk with hk | rfl
    · rcases h.accounted k hk with ⟨t', ht'⟩ | hres
      · exact .inl ⟨t', (hrequest t' k).mpr (.inr ht')⟩
      · exact .inr hres
    · exact .inl ⟨t, (hrequest t _).mpr (.inl ⟨rfl, rfl⟩)⟩
  · exact fun x hx => Nat.lt_succ_of_lt (h.executed_lt x hx)
  · intro t' j hj x hx
    by_cases heq : t' = t
    · subst heq
      have hid : (⟨s.next, r⟩ : Job ρ) = j := by simpa using hj
      rw [← hid]
      exact Nat.ne_of_lt (h.executed_lt x hx)
    · have hj' : s.posters t' = .fresh j := by simpa [heq] using hj
      exact h.fresh t' j hj' x hx
  · exact h.once
  · exact h.own

theorem Numbered.resolve (hready : s.posters t = .ready k) (hex : (k, s.result) ∈ s.executed) :
    { s.setPoster t .idle with resolved := s.resolved ++ [(k, s.result)] : JobQueue ρ }.Numbered := by
  have hrequest : ∀ t' k', ((s.setPoster t .idle).posters t').request = some k' → (s.posters t').request = some k' := by
    intro t' k' hk'
    by_cases heq : t' = t
    · rw [heq, posters_setPoster_self] at hk'
      cases hk'
    · rwa [posters_setPoster_of_ne heq] at hk'
  constructor
  · exact fun t' k' hk' => h.lt t' k' (hrequest t' k' hk')
  · exact fun t₁ t₂ k' hk₁ hk₂ => h.distinct t₁ t₂ k' (hrequest t₁ k' hk₁) (hrequest t₂ k' hk₂)
  · intro k' hk'
    by_cases hkk : k' = k
    · exact .inr ⟨s.result, by simp [hkk]⟩
    · rcases h.accounted k' hk' with ⟨t', ht'⟩ | ⟨code, hres⟩
      · refine .inl ⟨t', ?_⟩
        have hne : t' ≠ t := by
          rintro rfl
          rw [hready] at ht'
          exact hkk (some.inj ht').symm
        simpa [hne] using ht'
      · exact .inr ⟨code, mem_append_left _ hres⟩
  · exact h.executed_lt
  · intro t' j hj
    by_cases heq : t' = t
    · rw [heq] at hj
      simp at hj
    · have hj' : s.posters t' = .fresh j := by simpa [heq] using hj
      exact h.fresh t' j hj'
  · exact h.once
  · intro x hx
    rcases mem_append.mp hx with hx | hx
    · exact h.own x hx
    · rw [mem_singleton.mp hx]
      exact hex

theorem Numbered.execute {w : Worker ρ} {code : Int} (hflight : (s.posters t).inFlight = some k)
    (hnew : s.Unexecuted k) :
    { s with worker := w, executed := s.executed ++ [(k, code)] : JobQueue ρ }.Numbered := by
  have hreq := request_of_inFlight hflight
  constructor
  · exact h.lt
  · exact h.distinct
  · exact h.accounted
  · intro x hx
    rcases mem_append.mp hx with hx | hx
    · exact h.executed_lt x hx
    · rw [mem_singleton.mp hx]
      exact h.lt t k hreq
  · intro t' j hj x hx
    rcases mem_append.mp hx with hx | hx
    · exact h.fresh t' j hj x hx
    · rw [mem_singleton.mp hx]
      rintro rfl
      have hreq' := congrArg request hj
      have heq := h.distinct t t' _ hreq hreq'
      rw [heq, hj] at hflight
      cases hflight
  · rw [map_append, nodup_append]
    refine ⟨h.once, nodup_singleton _, fun a ha b hb => ?_⟩
    obtain ⟨x, hx, rfl⟩ := List.mem_map.mp ha
    rw [mem_singleton.mp hb]
    exact hnew x hx
  · exact fun x hx => mem_append_left _ (h.own x hx)

end

theorem PosterOk.stage {p : Poster ρ} (h : s.PosterOk t p) (hp : p.staged = some k) : s.Stage k := by
  cases p <;> cases hp
  case posted | checking => exact h
  all_goals exact h.1

theorem PosterOk.inFlight_ne {p : Poster ρ} (h : s.PosterOk t p) : p.inFlight ≠ none := by
  cases p <;> simp_all [PosterOk, inFlight]

theorem Turn.of_inFlight (h : s.Turn) {p : Poster ρ} (hp : s.posters t = p) (hflight : p.inFlight ≠ none) :
    (∀ t', t' ≠ t → (s.posters t').inFlight = none) ∧ s.PosterOk t p := by
  subst hp
  cases h with
  | free hposters => exact absurd (hposters t) hflight
  | taken t₀ hposters hok =>
    have heq : t = t₀ := by
      by_contra hne
      exact hflight (hposters t hne)
    exact heq ▸ ⟨hposters, hok⟩

/-- The future under way goes on to the phase `p`. -/
theorem Orderly.move (h : s.Orderly) {p q : Poster ρ} (hq : s.posters t = q)
    (hothers : ∀ t', t' ≠ t → (s.posters t').inFlight = none)
    (heq : (s'.posters, s'.next, s'.executed, s'.resolved) = (update s.posters t p, s.next, s.executed, s.resolved))
    (hok : s'.PosterOk t p) (hreq : p.request = q.request) : s'.Turn ∧ s'.Numbered := by
  have hposters : s'.posters = update s.posters t p := congrArg Prod.fst heq
  have hfresh : ∀ j, p ≠ .fresh j := by
    rintro j rfl
    exact hok
  refine ⟨.taken t (fun t' hne => ?_) ?_, (h.numbered.move (hreq.trans (congrArg request hq.symm)) hfresh).congr heq⟩
  · rw [hposters, update_of_ne hne]
    exact hothers t' hne
  · rwa [hposters, update_self]

theorem Turn.of_busy (h : s.Turn) (hbusy : s.pending ≠ none ∨ ¬ Resting s.worker) :
    ∃ t k, (∀ t', t' ≠ t → (s.posters t').inFlight = none) ∧ (s.posters t).staged = some k ∧
      s.PosterOk t (s.posters t) := by
  cases h with
  | free _ hpend hrest => exact absurd hbusy (by simp [hpend, hrest])
  | taken t hposters hok =>
    cases hp : s.posters t <;> rw [hp] at hok
    case idle | fresh => exact hok.elim
    case cleared | reset => exact absurd hbusy (by simp [hok.1, hok.2.1])
    all_goals exact ⟨t, _, hposters, by rw [hp]; rfl, by rwa [hp]⟩

/-- The request under way is the same, and the worker is, unless it has no request before and after. -/
structure SameWork (s s' : JobQueue ρ) : Prop where
  pending : s'.pending = s.pending
  done : s'.done = s.done
  result : s'.result = s.result
  executed : s'.executed = s.executed
  worker : s'.worker = s.worker ∨ Resting s.worker ∧ Resting s'.worker

theorem SameWork.rest (h : SameWork s s') (hrest : Resting s.worker) : Resting s'.worker :=
  h.worker.elim (fun hw => hw ▸ hrest) And.right

theorem SameWork.busy {w : Worker ρ} (h : SameWork s s') (hw : s.worker = w) (hbusy : ¬ Resting w) : s'.worker = w :=
  (h.worker.resolve_right fun hrest => hbusy (hw ▸ hrest.1)).trans hw

theorem Unexecuted.congr (h : SameWork s s') (hnew : s.Unexecuted k) : s'.Unexecuted k := by
  rwa [Unexecuted, h.executed]

theorem Stage.congr (h : s.Stage k) (hsame : SameWork s s') : s'.Stage k := by
  have hex {x : Nat × Int} (hx : x ∈ s.executed) : x ∈ s'.executed := hsame.executed ▸ hx
  have hpend := hsame.pending
  have hdone := hsame.done
  have hres := hsame.result
  cases h with
  | waiting j h1 h2 h3 h4 h5 => exact .waiting j h1 (hpend.trans h2) (hsame.rest h3) (hdone.trans h4) (h5.congr hsame)
  | executing j h1 h2 h3 h4 h5 =>
    exact .executing j h1 (hpend.trans h2) (hsame.busy h3 id) (hdone.trans h4) (h5.congr hsame)
  | storing c h1 h2 h3 h4 => exact .storing c (hpend.trans h1) (hsame.busy h2 id) (hdone.trans h3) (hex h4)
  | finishing h1 h2 h3 h4 => exact .finishing (hpend.trans h1) (hsame.busy h2 id) (hdone.trans h3) (hres ▸ hex h4)
  | finished h1 h2 h3 h4 => exact .finished (hpend.trans h1) (hsame.rest h2) (hdone.trans h3) (hres ▸ hex h4)

theorem PosterOk.wake {p : Poster ρ} (h : s.PosterOk t p) (hp : p = .leaving k ∨ p = .parked k) (hnot : s.Notified k) :
    s.posterWoken t = true := by
  rcases hp with rfl | rfl
  · exact h.2 hnot
  · exact h.2.1 hnot

theorem PosterOk.move {p : Poster ρ} (h : s.PosterOk t p) (hp : p.staged = some k) (hstage : s'.Stage k)
    (hdone : s.done = true → s'.done = true)
    (hwake : p = .leaving k ∨ p = .parked k → s'.Notified k → s'.posterWoken t = true)
    (hwaker : s.shellWaker = some t ∨ s.posterWoken t = true → s'.shellWaker = some t ∨ s'.posterWoken t = true) :
    s'.PosterOk t p := by
  cases p <;> cases hp
  case posted | checking => exact hstage
  case ready => exact ⟨hstage, hdone h.2⟩
  case leaving => exact ⟨hstage, hwake (.inl rfl)⟩
  case parked => exact ⟨hstage, hwake (.inr rfl), hwaker h.2.2⟩

theorem PosterOk.congr {p : Poster ρ} (h : s.PosterOk t p) (hsame : SameWork s s')
    (hwake : ∀ k, p = .leaving k ∨ p = .parked k → s'.Notified k → s'.posterWoken t = true)
    (hwaker : s.shellWaker = some t ∨ s.posterWoken t = true → s'.shellWaker = some t ∨ s'.posterWoken t = true) :
    s'.PosterOk t p := by
  cases hp : p.staged with
  | some k => exact h.move hp ((h.stage hp).congr hsame) (fun hd => hsame.done.trans hd) (hwake k) hwaker
  | none =>
    cases p <;> simp only [staged, reduceCtorEq] at hp
    case idle | fresh => exact h
    all_goals exact ⟨hsame.pending.trans h.1, hsame.rest h.2.1, hsame.done.trans h.2.2.1, h.2.2.2.congr hsame⟩

theorem Turn.keep (h : s.Turn) (hsame : SameWork s s')
    (hposters : ∀ t, (s.posters t).inFlight ≠ none ∨ (s'.posters t).inFlight ≠ none → s'.posters t = s.posters t)
    (hwake : ∀ t k, s.posters t = .leaving k ∨ s.posters t = .parked k → s.PosterOk t (s.posters t) →
      s'.Notified k → s'.posterWoken t = true)
    (hwaker : ∀ t, (s.posters t).inFlight ≠ none → s.shellWaker = some t ∨ s.posterWoken t = true →
      s'.shellWaker = some t ∨ s'.posterWoken t = true) : s'.Turn := by
  have hidle : ∀ t, (s.posters t).inFlight = none → (s'.posters t).inFlight = none := by
    intro t ht
    by_contra hne
    exact hne (hposters t (.inr hne) ▸ ht)
  cases h with
  | free hfree hpend hrest => exact .free (fun t => hidle t (hfree t)) (hsame.pending.trans hpend) (hsame.rest hrest)
  | taken t hothers hok =>
    refine .taken t (fun t' hne => hidle t' (hothers t' hne)) ?_
    rw [hposters t (.inl hok.inFlight_ne)]
    exact hok.congr hsame (fun k hphase => hwake t k hphase hok) (hwaker t hok.inFlight_ne)

/-- The futures stay where they are, and so does the request under way. -/
theorem Orderly.keep (h : s.Orderly) (hsame : SameWork s s')
    (heq : (s'.posters, s'.next, s'.resolved, s'.shellWaker) = (s.posters, s.next, s.resolved, s.shellWaker))
    (hnot : ∀ k, s'.Notified k → s.Notified k)
    (hwoken : ∀ t, (s.posters t).inFlight ≠ none → s.posterWoken t = true → s'.posterWoken t = true) :
    s'.Turn ∧ s'.Numbered := by
  simp only [Prod.mk.injEq] at heq
  obtain ⟨hposters, hnext, hres, hwaker⟩ := heq
  refine ⟨h.turn.keep hsame (fun t _ => congrFun hposters t) (fun t k hphase hok hk => ?_) fun t ht => ?_,
    h.numbered.congr (by rw [hposters, hnext, hsame.executed, hres])⟩
  · exact hwoken t hok.inFlight_ne (hok.wake hphase (hnot k hk))
  · rw [hwaker]
    exact Or.imp_right (hwoken t ht)

theorem Turn.of_stage (h : s.Turn) (hbusy : s.pending ≠ none ∨ ¬ Resting s.worker)
    (hposters : s'.posters = s.posters) (hdone : s.done = true → s'.done = true) (hnot : ∀ k, s.Stage k → ¬ s'.Notified k)
    (hwoken : s'.posterWoken = s.posterWoken) (hwaker : s'.shellWaker = s.shellWaker)
    (hstage : ∀ k, s.Stage k → s'.Stage k) : s'.Turn := by
  obtain ⟨t, k, hothers, hp, hok⟩ := h.of_busy hbusy
  refine .taken t (by rwa [hposters]) ?_
  rw [hposters]
  refine hok.move hp (hstage k (hok.stage hp)) hdone (fun _ hnotified => absurd hnotified (hnot k (hok.stage hp))) ?_
  rw [hwoken, hwaker]
  exact id

end JobQueue
end Ruos.Wasm
