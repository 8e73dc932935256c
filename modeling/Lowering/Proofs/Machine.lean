import Lowering.Fault

/-!
# Machines that can be watched

A machine takes one step after another until it stops.  A step may show events, and
a machine that has stopped has a result.  Two machines are *the same to a watcher* if
they show the same sequence of events, finite or not, and if one stops with a result
then so does the other, with the same result and after the same events.

A simulation gives this from what one step does.  Each step of the first machine is
answered by a run of the second that shows the same events; the run may be empty as
long as a rank goes down.  Since a machine has at most one next step, nothing has to
be said about the steps of the second machine.

## Main definitions

* `Machine` — a step function and the result of a configuration.
* `Machine.Run` — a number of steps with the events they show.
* `Machine.Shows`, `Machine.Ends` — what a watcher learns from a run.
* `Machine.Same` — no watcher can tell two machines apart.
* `Machine.Simulation` — the obligations for one step.
-/

namespace Lowering

/-- A machine with configurations in `σ`, events in `ε` and results in `ω`. -/
structure Machine (σ ε ω : Type) where
  /-- The next configuration and the events of the step, unless the machine stops. -/
  step : σ → Option (List ε × σ)
  /-- What the machine leaves when it stops. -/
  result : σ → ω

namespace Machine

variable {σ τ υ ε ω : Type} {M : Machine σ ε ω} {N : Machine τ ε ω} {L : Machine υ ε ω}

/-- `n` steps from one configuration to another, and all their events. -/
inductive Run (M : Machine σ ε ω) : Nat → σ → List ε → σ → Prop where
  | refl (s : σ) : Run M 0 s [] s
  | head {n : Nat} {s t u : σ} {es fs : List ε} :
      M.step s = some (es, t) → Run M n t fs u → Run M (n + 1) s (es ++ fs) u

theorem Run.single {s t : σ} {es : List ε} (h : M.step s = some (es, t)) : M.Run 1 s es t := by
  simpa using Run.head h (.refl t)

theorem Run.append {m n : Nat} {s t u : σ} {es fs : List ε} (h : M.Run m s es t)
    (h' : M.Run n t fs u) : M.Run (m + n) s (es ++ fs) u := by
  induction h with
  | refl => simpa using h'
  | head hs _ ih =>
    rw [Nat.add_right_comm, List.append_assoc]
    exact .head hs (ih h')

/-- Of two runs from one configuration the longer one goes on where the shorter one
ends. -/
theorem Run.extends {m n : Nat} {s t u : σ} {es fs : List ε} (h : M.Run m s es t)
    (h' : M.Run n s fs u) (hmn : m ≤ n) : ∃ gs, fs = es ++ gs ∧ M.Run (n - m) t gs u := by
  induction h generalizing n fs with
  | refl s => exact ⟨fs, rfl, h'⟩
  | head hs _ ih =>
    cases h' with
    | refl => omega
    | head hs' hr' =>
      rw [hs] at hs'
      cases hs'
      obtain ⟨gs, hgs, hrun⟩ := ih hr' (by omega)
      refine ⟨gs, by rw [hgs, List.append_assoc], ?_⟩
      rwa [Nat.add_sub_add_right]

/-- A machine that has stopped takes no more steps. -/
theorem Run.of_stopped {n : Nat} {s t : σ} {es : List ε} (h : M.Run n s es t)
    (hs : M.step s = none) : n = 0 ∧ es = [] ∧ t = s := by
  cases h with
  | refl => exact ⟨rfl, rfl, rfl⟩
  | head hstep => rw [hs] at hstep; cases hstep

/-- The events are the first ones that the machine shows. -/
def Shows (M : Machine σ ε ω) (s : σ) (es : List ε) : Prop :=
  ∃ n fs t, M.Run n s fs t ∧ es <+: fs

/-- The machine stops with a result after exactly these events. -/
def Ends (M : Machine σ ε ω) (s : σ) (es : List ε) (r : ω) : Prop :=
  ∃ n t, M.Run n s es t ∧ M.step t = none ∧ M.result t = r

/-- The two machines show the same events and stop with the same results. -/
structure Same (M : Machine σ ε ω) (s : σ) (N : Machine τ ε ω) (t : τ) : Prop where
  /-- Whatever one of them shows, the other shows too. -/
  shows_iff : ∀ es, M.Shows s es ↔ N.Shows t es
  /-- If one of them stops, so does the other. -/
  ends_iff : ∀ es r, M.Ends s es r ↔ N.Ends t es r

namespace Same

theorem trans {s : σ} {t : τ} {u : υ} (h : Same M s N t) (h' : Same N t L u) :
    Same M s L u :=
  ⟨fun es => (h.shows_iff es).trans (h'.shows_iff es),
    fun es r => (h.ends_iff es r).trans (h'.ends_iff es r)⟩

end Same

/-- What has to be known of one step for two machines to be the same. -/
structure Simulation (M : Machine σ ε ω) (N : Machine τ ε ω) (R : σ → τ → Prop)
    (rank : σ → Nat) : Prop where
  /-- A step is answered by a run with the same events. -/
  step : ∀ {s t es s'}, R s t → M.step s = some (es, s') →
    ∃ n t', N.Run n t es t' ∧ R s' t' ∧ (n = 0 → rank s' < rank s)
  /-- When the first machine stops, the second stops without showing anything more. -/
  stop : ∀ {s t}, R s t → M.step s = none →
    ∃ n t', N.Run n t [] t' ∧ N.step t' = none ∧ M.result s = N.result t'

namespace Simulation

variable {R : σ → τ → Prop} {rank : σ → Nat}

/-- A whole run is answered by a run with the same events. -/
theorem run (sim : Simulation M N R rank) {n : Nat} {s s' : σ} {t : τ} {es : List ε}
    (hR : R s t) (h : M.Run n s es s') : ∃ m t', N.Run m t es t' ∧ R s' t' := by
  induction h generalizing t with
  | refl s => exact ⟨0, t, .refl t, hR⟩
  | head hs _ ih =>
    obtain ⟨m, t₁, hrun, hR₁, -⟩ := sim.step hR hs
    obtain ⟨m', t₂, hrun', hR₂⟩ := ih hR₁
    exact ⟨m + m', t₂, hrun.append hrun', hR₂⟩

/-- Induction along the steps of the first machine while the second has a number of
steps left to take.  Each answer uses some of them up, or else the rank goes down. -/
theorem induction (sim : Simulation M N R rank) {P : σ → τ → Nat → Prop}
    (stop : ∀ {s t m}, R s t → M.step s = none → P s t m)
    (step : ∀ {s t m es s' j t'}, M.step s = some (es, s') → N.Run j t es t' →
      (j ≤ m → P s' t' (m - j)) → P s t m) (m : Nat) :
    ∀ (k : Nat) {s t}, rank s ≤ k → R s t → P s t m := by
  induction m using Nat.strongRecOn with
  | ind m ihm =>
    intro k
    induction k using Nat.strongRecOn with
    | ind k ihk =>
      intro s t hk hR
      cases hs : M.step s with
      | none => exact stop hR hs
      | some next =>
        obtain ⟨es, s'⟩ := next
        obtain ⟨j, t', hrun, hR', hrank⟩ := sim.step hR hs
        refine step hs hrun fun hj => ?_
        by_cases hj0 : j = 0
        · subst hj0
          exact ihk (rank s') (by have := hrank rfl; omega) (Nat.le_refl _) hR'
        · exact ihm (m - j) (by omega) (rank s') (Nat.le_refl _) hR'

/-- Whatever the second machine shows, the first shows too. -/
theorem exists_run (sim : Simulation M N R rank) {m : Nat} {s : σ} {t t' : τ} {es : List ε}
    (hR : R s t) (h : N.Run m t es t') : ∃ n fs s', M.Run n s (es ++ fs) s' := by
  refine sim.induction
    (P := fun s t m => ∀ es t', N.Run m t es t' → ∃ n fs s', M.Run n s (es ++ fs) s')
    ?stop ?step m (rank s) (Nat.le_refl _) hR es t' h
  case stop =>
    intro s t m hR hs es t' hrun
    obtain ⟨j, t₁, hrun₁, hstop, -⟩ := sim.stop hR hs
    have hes : es = [] := by
      rcases Nat.le_total m j with hle | hle
      · obtain ⟨gs, hgs, -⟩ := hrun.extends hrun₁ hle
        exact (List.append_eq_nil_iff.1 hgs.symm).1
      · obtain ⟨gs, hgs, hrest⟩ := hrun₁.extends hrun hle
        rw [hgs, (hrest.of_stopped hstop).2.1, List.append_nil]
    exact ⟨0, [], s, by rw [hes]; exact .refl s⟩
  case step =>
    intro s t m fs s' j t₁ hs hrun₁ ih es t' hrun
    rcases Nat.le_total m j with hle | hle
    · obtain ⟨gs, hgs, -⟩ := hrun.extends hrun₁ hle
      exact ⟨1, gs, s', by rw [← hgs]; exact .single hs⟩
    · obtain ⟨gs, hgs, hrest⟩ := hrun₁.extends hrun hle
      obtain ⟨n, hs', s'', hrun'⟩ := ih hle gs t' hrest
      refine ⟨n + 1, hs', s'', ?_⟩
      rw [hgs, List.append_assoc]
      exact .head hs hrun'

/-- If the second machine stops, so does the first, with the same result. -/
theorem exists_stop (sim : Simulation M N R rank) {m : Nat} {s : σ} {t t' : τ} {es : List ε}
    (hR : R s t) (h : N.Run m t es t') (hstop : N.step t' = none) :
    ∃ n s', M.Run n s es s' ∧ M.step s' = none ∧ M.result s' = N.result t' := by
  refine sim.induction
    (P := fun s t m => ∀ es t', N.Run m t es t' → N.step t' = none →
      ∃ n s', M.Run n s es s' ∧ M.step s' = none ∧ M.result s' = N.result t')
    ?stop ?step m (rank s) (Nat.le_refl _) hR es t' h hstop
  case stop =>
    intro s t m hR hs es t' hrun hstop
    obtain ⟨j, t₁, hrun₁, hstop₁, hres⟩ := sim.stop hR hs
    rcases Nat.le_total m j with hle | hle
    · obtain ⟨gs, hgs, hrest⟩ := hrun.extends hrun₁ hle
      obtain ⟨-, -, rfl⟩ := hrest.of_stopped hstop
      refine ⟨0, s, ?_, hs, hres⟩
      rw [(List.append_eq_nil_iff.1 hgs.symm).1]
      exact .refl s
    · obtain ⟨gs, hgs, hrest⟩ := hrun₁.extends hrun hle
      obtain ⟨-, rfl, rfl⟩ := hrest.of_stopped hstop₁
      refine ⟨0, s, ?_, hs, hres⟩
      rw [hgs]
      exact .refl s
  case step =>
    intro s t m fs s' j t₁ hs hrun₁ ih es t' hrun hstop
    have hle : j ≤ m := by
      rcases Nat.le_total m j with hle | hle
      · obtain ⟨gs, -, hrest⟩ := hrun.extends hrun₁ hle
        have := (hrest.of_stopped hstop).1
        omega
      · exact hle
    obtain ⟨gs, hgs, hrest⟩ := hrun₁.extends hrun hle
    obtain ⟨n, s'', hrun', hstop', hres⟩ := ih hle gs t' hrest hstop
    exact ⟨n + 1, s'', by rw [hgs]; exact .head hs hrun', hstop', hres⟩

/-- **Simulated machines are the same to a watcher.** -/
theorem same (sim : Simulation M N R rank) {s : σ} {t : τ} (hR : R s t) : Same M s N t where
  shows_iff := by
    intro es
    constructor
    · rintro ⟨n, fs, s', hrun, hpre⟩
      obtain ⟨m, t', hrun', -⟩ := sim.run hR hrun
      exact ⟨m, fs, t', hrun', hpre⟩
    · rintro ⟨n, fs, t', hrun, hpre⟩
      obtain ⟨m, gs, s', hrun'⟩ := sim.exists_run hR hrun
      exact ⟨m, fs ++ gs, s', hrun', hpre.trans (List.prefix_append fs gs)⟩
  ends_iff := by
    intro es r
    constructor
    · rintro ⟨n, s', hrun, hstop, hres⟩
      obtain ⟨m, t', hrun', hR'⟩ := sim.run hR hrun
      obtain ⟨j, t'', hrun'', hstop', hres'⟩ := sim.stop hR' hstop
      have hall := hrun'.append hrun''
      rw [List.append_nil] at hall
      exact ⟨m + j, t'', hall, hstop', by rw [← hres', hres]⟩
    · rintro ⟨n, t', hrun, hstop, hres⟩
      obtain ⟨m, s', hrun', hstop', hres'⟩ := sim.exists_stop hR hrun hstop
      exact ⟨m, s', hrun', hstop', by rw [hres', hres]⟩

end Simulation

end Machine

end Lowering
