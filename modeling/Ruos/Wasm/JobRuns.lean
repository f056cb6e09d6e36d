import Ruos.Wasm.JobTurns

/-! Runs in which the futures take turns: all requests are served. -/
namespace Ruos.Wasm

open Lib Function Option Poster

namespace JobQueue

variable {ρ : Type} {s s' : JobQueue ρ} {t t' k : Nat} {e : JobStep ρ}

theorem Stage.of_pending {j : Job ρ} (hstage : s.Stage k) (hpend : s.pending = some j) :
    j.id = k ∧ s.done = false ∧ s.Unexecuted k := by
  cases hstage with
  | waiting j' hid hpend' _ hdone hnew => exact ⟨some.inj (hpend.symm.trans hpend') ▸ hid, hdone, hnew⟩
  | executing _ _ hpend' | storing _ hpend' | finishing hpend' | finished hpend' => cases hpend.symm.trans hpend'

theorem Stage.of_storing {n : Nat} {code : Int} (hstage : s.Stage k) (hw : s.worker = .storing n code) :
    n = k ∧ s.pending = none ∧ s.done = false ∧ (k, code) ∈ s.executed := by
  cases hstage with
  | storing code' hpend hw' hdone hex =>
    obtain ⟨rfl, rfl⟩ : n = k ∧ code = code' := by simpa using hw.symm.trans hw'
    exact ⟨rfl, hpend, hdone, hex⟩
  | executing _ _ _ hw' | finishing _ hw' => cases hw.symm.trans hw'
  | waiting _ _ _ hrest | finished _ hrest => exact absurd hrest (by rw [hw]; exact id)

theorem Stage.of_finishing {n : Nat} (hstage : s.Stage k) (hw : s.worker = .finishing n) :
    n = k ∧ s.pending = none ∧ (k, s.result) ∈ s.executed := by
  cases hstage with
  | finishing hpend hw' hdone hex =>
    obtain rfl : n = k := by simpa using hw.symm.trans hw'
    exact ⟨rfl, hpend, hex⟩
  | executing _ _ _ hw' | storing _ _ hw' => cases hw.symm.trans hw'
  | waiting _ _ _ hrest | finished _ hrest => exact absurd hrest (by rw [hw]; exact id)

section

variable (h : s.Orderly)
include h

theorem Orderly.advance (hturn : s.InTurn (.advance t)) (hstep : s.advance t = some s') : s'.Turn ∧ s'.Numbered := by
  simp only [JobQueue.advance] at hstep
  cases hp : s.posters t <;> simp only [hp] at hstep <;> cases hstep
  case fresh j =>
    simp only [InTurn, hp] at hturn
    cases h.turn with
    | free _ hpend hrest => exact h.move hp (fun t' _ => hturn t') rfl ⟨hpend, hrest, rfl, h.numbered.fresh t j hp⟩ rfl
    | taken t₀ _ hok => exact absurd (hturn t₀) hok.inFlight_ne
  case cleared j =>
    obtain ⟨hothers, hok⟩ := h.turn.of_inFlight hp (by rintro ⟨⟩)
    exact h.move hp hothers (p := .reset j) rfl hok rfl
  case reset j =>
    obtain ⟨hothers, hpend, hrest, hdone, hnew⟩ := h.turn.of_inFlight hp (by rintro ⟨⟩)
    exact h.move hp hothers (p := .posted j.id) rfl (.waiting j rfl rfl hrest hdone hnew) rfl
  case posted k =>
    obtain ⟨hothers, hok⟩ := h.turn.of_inFlight hp (by rintro ⟨⟩)
    exact h.move hp hothers (p := .checking k) rfl (Stage.congr hok ⟨rfl, rfl, rfl, rfl, .inl rfl⟩) rfl
  case checking k =>
    obtain ⟨hothers, hok⟩ := h.turn.of_inFlight hp (by rintro ⟨⟩)
    refine h.move hp hothers rfl ?_ (by split_ifs <;> rfl)
    cases hdone : s.done with
    | true => exact ⟨Stage.congr hok ⟨rfl, rfl, rfl, rfl, .inl rfl⟩, hdone⟩
    | false => exact ⟨Stage.congr hok ⟨rfl, rfl, rfl, rfl, .inl rfl⟩, fun hnot => by cases hdone.symm.trans hnot.1⟩
  case ready k =>
    obtain ⟨hothers, hstage, hdone⟩ := h.turn.of_inFlight hp (by rintro ⟨⟩)
    cases hstage with
    | waiting _ _ _ _ hnot | executing _ _ _ _ hnot | storing _ _ _ hnot | finishing _ _ hnot =>
      cases hdone.symm.trans hnot
    | finished hpend hrest _ hex =>
      refine ⟨.free (fun t' => ?_) hpend hrest, h.numbered.resolve hp hex⟩
      by_cases heq : t' = t
      · subst heq
        exact congrArg inFlight (posters_setPoster_self s t' .idle)
      · exact (congrArg inFlight (posters_setPoster_of_ne heq s .idle)).trans (hothers t' heq)
  case leaving k =>
    obtain ⟨hothers, hstage, hwake⟩ := h.turn.of_inFlight hp (by rintro ⟨⟩)
    exact h.move hp hothers (p := .parked k) rfl ⟨hstage.congr ⟨rfl, rfl, rfl, rfl, .inl rfl⟩, hwake, .inl rfl⟩ rfl

theorem Orderly.notify {n : Nat} (hw : s.worker = .notifying n)
    (hturn : ∀ t, s.posters t = .leaving n → s.posterWoken t = true) (hstep : s.work = some s') : s'.Turn ∧ s'.Numbered := by
  have hrest : Resting s.worker := by rw [hw]; trivial
  -- The future that is told has left its waker, or is woken already.
  have hwake : ∀ t k, s.posters t = .leaving k ∨ s.posters t = .parked k → s.PosterOk t (s.posters t) →
      s.done = true → s.shellWaker = some t ∨ s.posterWoken t = true := by
    intro t k hphase hok hdone
    by_cases hk : k = n
    · rcases hphase with hp | hp
      · exact .inr (hturn t (hk ▸ hp))
      · rw [hp] at hok
        exact hok.2.2
    · exact .inr (hok.wake hphase ⟨hdone, by rw [hw]; simpa using Ne.symm hk⟩)
  cases hshell : s.shellWaker with
  | none =>
    simp only [work, hw, hshell, some.injEq] at hstep
    subst hstep
    refine ⟨h.turn.keep ⟨rfl, rfl, rfl, rfl, .inr ⟨hrest, trivial⟩⟩ (fun _ _ => rfl) (fun t k hphase hok hnotified => ?_)
      (fun t _ ht => ?_), h.numbered.congr rfl⟩
    · exact (hwake t k hphase hok hnotified.1).resolve_left (by simp [hshell])
    · exact .inr (ht.resolve_left (by simp [hshell]))
  | some t₀ =>
    simp only [work, hw, hshell, some.injEq] at hstep
    subst hstep
    have hwoken : ∀ t, s.shellWaker = some t ∨ s.posterWoken t = true → update s.posterWoken t₀ true t = true := by
      intro t ht
      by_cases heq : t = t₀
      · rw [heq, update_self]
      · rw [update_of_ne heq]
        refine ht.resolve_left ?_
        rw [hshell]
        exact fun h => heq (some.inj h).symm
    exact ⟨h.turn.keep ⟨rfl, rfl, rfl, rfl, .inr ⟨hrest, trivial⟩⟩ (fun _ _ => rfl)
      (fun t k hphase hok hnotified => hwoken t (hwake t k hphase hok hnotified.1)) (fun t _ ht => .inr (hwoken t ht)),
      h.numbered.congr rfl⟩

theorem Orderly.work (hturn : s.InTurn .work) (hstep : s.work = some s') : s'.Turn ∧ s'.Numbered := by
  cases hw : s.worker with
  | notifying n =>
    simp only [InTurn, hw] at hturn
    exact h.notify hw hturn hstep
  | parked | executing => simp [JobQueue.work, hw] at hstep
  | polling =>
    cases hpend : s.pending <;> simp only [JobQueue.work, hw, hpend, some.injEq] at hstep <;> subst hstep
    case none =>
      exact h.keep ⟨hpend.symm, rfl, rfl, rfl, .inr ⟨by rw [hw]; trivial, trivial⟩⟩ rfl (fun k hk => ⟨hk.1, by simp [hw]⟩)
        fun _ _ => id
    case some j =>
      refine ⟨h.turn.of_stage (.inl (by simp [hpend])) rfl id (fun k hk hnotified => ?_) rfl rfl fun k hk => ?_,
        h.numbered.congr rfl⟩ <;> obtain ⟨hid, hdone, hnew⟩ := hk.of_pending hpend
      · cases hdone.symm.trans hnotified.1
      · exact .executing j hid rfl rfl hdone hnew
  | leaving =>
    simp only [JobQueue.work, hw, some.injEq] at hstep
    subst hstep
    exact h.keep ⟨rfl, rfl, rfl, rfl, .inr ⟨by rw [hw]; trivial, trivial⟩⟩ rfl (fun k hk => ⟨hk.1, by simp [hw]⟩)
      fun _ _ => id
  | storing n code =>
    simp only [JobQueue.work, hw, some.injEq] at hstep
    subst hstep
    refine ⟨h.turn.of_stage (.inr (by rw [hw]; exact id)) rfl id (fun k hk hnotified => ?_) rfl rfl fun k hk => ?_,
      h.numbered.congr rfl⟩ <;> obtain ⟨rfl, hpend, hdone, hex⟩ := hk.of_storing hw
    · cases hdone.symm.trans hnotified.1
    · exact .finishing hpend rfl hdone hex
  | finishing n =>
    simp only [JobQueue.work, hw, some.injEq] at hstep
    subst hstep
    refine ⟨h.turn.of_stage (.inr (by rw [hw]; exact id)) rfl (fun _ => rfl) (fun k hk hnotified => ?_) rfl rfl
      fun k hk => ?_, h.numbered.congr rfl⟩ <;> obtain ⟨rfl, hpend, hex⟩ := hk.of_finishing hw
    · exact hnotified.2 rfl
    · exact .finished hpend trivial rfl hex

theorem Orderly.post {r : ρ} (hstep : s.step (.post t r) = some s') : s'.Turn ∧ s'.Numbered := by
  simp only [step] at hstep
  cases hp : s.posters t <;> simp only [hp, some.injEq, reduceCtorEq] at hstep
  subst hstep
  refine ⟨h.turn.keep ⟨rfl, rfl, rfl, rfl, .inl rfl⟩ (fun t' ht' => ?_) (fun _ _ hphase hok => hok.wake hphase)
    (fun _ _ => id), h.numbered.post hp r⟩
  have hne : t' ≠ t := by
    rintro rfl
    exact ht'.elim (· (congrArg inFlight hp)) (· (congrArg inFlight (posters_setPoster_self s t' _)))
  exact posters_setPoster_of_ne hne s _

theorem Orderly.poll (hstep : s.step (.poll t) = some s') : s'.Turn ∧ s'.Numbered := by
  simp only [step] at hstep
  split_ifs at hstep
  cases hp : s.posters t <;> simp only [hp, some.injEq, reduceCtorEq] at hstep <;> subst hstep
  case idle =>
    refine h.keep ⟨rfl, rfl, rfl, rfl, .inl rfl⟩ rfl (fun _ => id) fun t' ht' hwoken => ?_
    have hne : t' ≠ t := by
      rintro rfl
      exact ht' (congrArg inFlight hp)
    exact (update_of_ne hne _ _).trans hwoken
  case parked k =>
    obtain ⟨hothers, hstage, -⟩ := h.turn.of_inFlight hp (by rintro ⟨⟩)
    exact h.move hp hothers (p := .checking k) rfl (hstage.congr ⟨rfl, rfl, rfl, rfl, .inl rfl⟩) rfl

theorem Orderly.exit {code : Int} (hstep : s.step (.exit code) = some s') : s'.Turn ∧ s'.Numbered := by
  simp only [step] at hstep
  cases hw : s.worker with
  | executing j =>
    simp only [hw] at hstep
    cases hstep
    have hbusy : s.pending ≠ none ∨ ¬ Resting s.worker := .inr (by rw [hw]; exact id)
    have hexecuting : ∀ k, s.Stage k → j.id = k ∧ s.pending = none ∧ s.done = false ∧ s.Unexecuted k := by
      intro k hstage
      cases hstage with
      | executing j' hid hpend hw' hdone hnew =>
        obtain rfl : j = j' := by simpa using hw.symm.trans hw'
        exact ⟨hid, hpend, hdone, hnew⟩
      | storing _ _ hw' | finishing _ hw' => cases hw.symm.trans hw'
      | waiting _ _ _ hrest | finished _ hrest => exact absurd hrest (by rw [hw]; exact id)
    constructor
    · refine h.turn.of_stage hbusy rfl id (fun k hk hnotified => ?_) rfl rfl fun k hk => ?_
      · cases (hexecuting k hk).2.2.1.symm.trans hnotified.1
      · obtain ⟨rfl, hpend, hdone, -⟩ := hexecuting k hk
        exact .storing code hpend rfl hdone (List.mem_append_right _ (List.mem_singleton_self _))
    · obtain ⟨t, k, -, hp, hok⟩ := h.turn.of_busy hbusy
      obtain ⟨rfl, -, -, hnew⟩ := hexecuting k (hok.stage hp)
      exact h.numbered.execute (inFlight_of_staged hp) hnew
  | _ => simp [hw] at hstep

theorem Orderly.pollWorker (hstep : s.step .pollWorker = some s') : s'.Turn ∧ s'.Numbered := by
  simp only [step] at hstep
  split_ifs at hstep
  cases hw : s.worker with
  | parked =>
    simp only [hw, some.injEq] at hstep
    subst hstep
    exact h.keep ⟨rfl, rfl, rfl, rfl, .inr ⟨by rw [hw]; trivial, trivial⟩⟩ rfl (fun k hk => ⟨hk.1, by simp [hw]⟩)
      fun _ _ => id
  | executing j =>
    simp only [hw, some.injEq] at hstep
    subst hstep
    exact h.keep ⟨rfl, rfl, rfl, rfl, .inl hw.symm⟩ rfl (fun _ hk => ⟨hk.1, hw ▸ hk.2⟩) fun _ _ => id
  | _ => simp [hw] at hstep

theorem Orderly.turn_step (hturn : s.InTurn e) (hstep : s.step e = some s') : s'.Turn ∧ s'.Numbered := by
  cases e with
  | post t r => exact h.post hstep
  | advance t => exact h.advance hturn hstep
  | poll t => exact h.poll hstep
  | work => exact h.work hturn hstep
  | exit code => exact h.exit hstep
  | pollWorker => exact h.pollWorker hstep
  | rouse t =>
    cases hstep
    refine h.keep ⟨rfl, rfl, rfl, rfl, .inl rfl⟩ rfl (fun _ => id) fun t' _ hwoken => ?_
    by_cases heq : t' = t
    · rw [heq]
      exact update_self _ _ _
    · exact (update_of_ne heq _ _).trans hwoken
  | rouseWorker =>
    cases hstep
    exact h.keep ⟨rfl, rfl, rfl, rfl, .inl rfl⟩ rfl (fun _ => id) fun _ _ => id

end

theorem stepInTime_of_inTurn (h : s.InTurn e) : Mailbox.StepInTime .slot mailbox mailStep s e := by
  intro x hx
  cases e with
  | advance t =>
    simp only [mailStep] at hx
    cases hp : s.posters t <;> simp only [hp, mem_def] at hx <;> cases hx
    · trivial
    · simpa only [InTurn, hp] using h
  | work =>
    simp only [mailStep] at hx
    cases hw : s.worker <;> simp only [hw, mem_def] at hx <;> cases hx <;> trivial
  | pollWorker | rouseWorker =>
    obtain rfl := mem_some_iff.mp hx
    trivial
  | _ => cases hx

theorem Orderly.step (h : s.Orderly) (hturn : s.InTurn e) (hstep : s.step e = some s') : s'.Orderly := by
  obtain ⟨hturn', hnumbered⟩ := h.turn_step hturn hstep
  exact ⟨hturn', hnumbered, (simulates_mailbox ρ).awake h.awake (stepInTime_of_inTurn hturn) hstep⟩

end JobQueue
end Ruos.Wasm
