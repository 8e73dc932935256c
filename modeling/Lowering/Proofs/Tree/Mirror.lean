import Lowering.Proofs.Tree.Fragment

/-!
# Evaluations that agree but for hidden temporaries

Some temporaries are *hidden*: tree code does not mention them and calls do not touch them.
Two evaluations mirror each other if, from states that agree on all else, they give the same
values and leave states that agree on all else.  A spine mirrors another one if each of its
actions is mirrored by a window of the other, a closed list that may end with a branch.

## Main definitions

* `TreeState.Agrees`, `World.Spares` — hidden temporaries.
* `Mirrors` — evaluations that agree.
* `Evaluation.Preserves` — evaluations that leave some temporaries alone.
* `Window` — a window that takes the place of an action.
* `mirrors_flatten` — the main result.
-/

namespace Lowering

variable {hidden : Temp → Prop} {α β : Type} {s s' t t' u : TreeState} {W : World}

/-- Two states that differ in hidden temporaries only. -/
structure TreeState.Agrees (hidden : Temp → Prop) (s t : TreeState) : Prop where
  temps : ∀ x, ¬hidden x → s.temps x = t.temps x
  memory : s.memory = t.memory
  calls : s.calls = t.calls

theorem TreeState.Agrees.refl (s : TreeState) : s.Agrees hidden s := ⟨fun _ _ => rfl, rfl, rfl⟩

theorem TreeState.Agrees.trans (h : s.Agrees hidden t)
    (h' : t.Agrees hidden u) : s.Agrees hidden u :=
  ⟨fun x hx => (h.temps x hx).trans (h'.temps x hx), h.memory.trans h'.memory,
    h.calls.trans h'.calls⟩

theorem TreeState.Agrees.mono {hidden' : Temp → Prop} (h : s.Agrees hidden t)
    (hsub : ∀ x, hidden x → hidden' x) : s.Agrees hidden' t :=
  { h with temps := fun x hx => h.temps x fun hx' => hx (hsub x hx') }

theorem TreeState.Agrees.setTemp (h : s.Agrees hidden t) (x : Temp) (v : Word) :
    (s.setTemp x v).Agrees hidden (t.setTemp x v) := by
  refine ⟨fun y hy => ?_, h.memory, h.calls⟩
  by_cases hyx : y = x
  · subst hyx
    simp [TreeState.setTemp]
  · simpa [TreeState.setTemp, hyx] using h.temps y hy

/-- A hidden temporary may be changed in one of the states. -/
theorem TreeState.Agrees.setHidden (h : s.Agrees hidden t) {x : Temp} (hx : hidden x) (v : Word) :
    s.Agrees hidden (t.setTemp x v) := by
  refine ⟨fun y hy => ?_, h.memory, h.calls⟩
  have hyx : y ≠ x := fun heq => hy (heq ▸ hx)
  simpa [TreeState.setTemp, hyx] using h.temps y hy

theorem TreeState.Agrees.setMemory (h : s.Agrees hidden t) (a v : Word) :
    (s.setMemory a v).Agrees hidden (t.setMemory a v) :=
  ⟨h.temps, by simp [TreeState.setMemory, h.memory], h.calls⟩

/-- Calls do not touch hidden temporaries: they neither read nor change them. -/
structure World.Spares (W : World) (hidden : Temp → Prop) : Prop where
  reads : ∀ f args m {u v}, (∀ x, ¬hidden x → u x = v x) →
    (W.call f args u m).1 = (W.call f args v m).1 ∧
    (∀ x, ¬hidden x → (W.call f args u m).2.1 x = (W.call f args v m).2.1 x) ∧
    (W.call f args u m).2.2 = (W.call f args v m).2.2
  writes : ∀ {f args u m x}, hidden x → (W.call f args u m).2.1 x = u x

/-- The evaluations give the same values and leave states that agree. -/
structure Mirrors (hidden : Temp → Prop) (e e' : Evaluation α) : Prop where
  forth : ∀ {s t a s'}, s.Agrees hidden t → e s a s' → ∃ t', e' t a t' ∧ s'.Agrees hidden t'
  back : ∀ {s t a t'}, s.Agrees hidden t → e' t a t' → ∃ s', e s a s' ∧ s'.Agrees hidden t'

/-- A function of a value and the state that does not depend on hidden temporaries. -/
def Respects (hidden : Temp → Prop) (f : α → TreeState → β × TreeState) : Prop :=
  ∀ a ⦃s t⦄, s.Agrees hidden t → (f a s).1 = (f a t).1 ∧ (f a s).2.Agrees hidden (f a t).2

namespace Mirrors

variable {e e' : Evaluation α} {r r' : Evaluation β} {run run' : Evaluation Unit}

theorem still {f : TreeState → α} (hf : ∀ {s t}, s.Agrees hidden t → f s = f t) :
    Mirrors hidden (Evaluation.still f) (Evaluation.still f) where
  forth := by
    rintro s t a s' h ⟨rfl, rfl⟩
    exact ⟨t, ⟨hf h, rfl⟩, h⟩
  back := by
    rintro s t a t' h ⟨rfl, rfl⟩
    exact ⟨s, ⟨(hf h).symm, rfl⟩, h⟩

theorem pair (h : Mirrors hidden e e') (hr : Mirrors hidden r r') :
    Mirrors hidden (e.pair r) (e'.pair r') where
  forth := by
    rintro s t p s' hst ⟨u, he, hr'⟩
    obtain ⟨u', he', hu⟩ := h.forth hst he
    obtain ⟨t', hr'', ht⟩ := hr.forth hu hr'
    exact ⟨t', ⟨u', he', hr''⟩, ht⟩
  back := by
    rintro s t p t' hst ⟨u, he, hr'⟩
    obtain ⟨u', he', hu⟩ := h.back hst he
    obtain ⟨s', hr'', hs⟩ := hr.back hu hr'
    exact ⟨s', ⟨u', he', hr''⟩, hs⟩

theorem andThen (h : Mirrors hidden e e') {f : α → TreeState → β × TreeState}
    (hf : Respects hidden f) : Mirrors hidden (e.andThen f) (e'.andThen f) where
  forth := by
    rintro s t b s' hst ⟨a, u, he, heq⟩
    obtain ⟨u', he', hu⟩ := h.forth hst he
    obtain ⟨hv, hag⟩ := hf a hu
    rw [heq] at hv hag
    exact ⟨(f a u').2, ⟨a, u', he', Prod.ext hv.symm rfl⟩, hag⟩
  back := by
    rintro s t b t' hst ⟨a, u, he, heq⟩
    obtain ⟨u', he', hu⟩ := h.back hst he
    obtain ⟨hv, hag⟩ := hf a hu
    rw [heq] at hv hag
    exact ⟨(f a u').2, ⟨a, u', he', Prod.ext hv rfl⟩, hag⟩

theorem select (h : Mirrors hidden e e') (g : α → Option β) :
    Mirrors hidden (e.select g) (e'.select g) where
  forth := by
    rintro s t b s' hst ⟨a, he, hg⟩
    obtain ⟨t', he', hagree⟩ := h.forth hst he
    exact ⟨t', ⟨a, he', hg⟩, hagree⟩
  back := by
    rintro s t b t' hst ⟨a, he, hg⟩
    obtain ⟨s', he', hagree⟩ := h.back hst he
    exact ⟨s', ⟨a, he', hg⟩, hagree⟩

theorem behind (h : Mirrors hidden run run') (he : Mirrors hidden e e') :
    Mirrors hidden (.behind run e) (.behind run' e') where
  forth := by
    rintro s t a s' hst ⟨u, hrun, he₁⟩
    obtain ⟨u', hrun', hu⟩ := h.forth hst hrun
    obtain ⟨t', he', ht⟩ := he.forth hu he₁
    exact ⟨t', ⟨u', hrun', he'⟩, ht⟩
  back := by
    rintro s t a t' hst ⟨u, hrun, he₁⟩
    obtain ⟨u', hrun', hu⟩ := h.back hst hrun
    obtain ⟨s', he', hs⟩ := he.back hu he₁
    exact ⟨s', ⟨u', hrun', he'⟩, hs⟩

end Mirrors

theorem World.invoke_eq (W : World) (f : Word) (args : List Word) (s : TreeState) :
    W.invoke f args s = ((W.call f args s.temps s.memory).1,
      ⟨(W.call f args s.temps s.memory).2.1, (W.call f args s.temps s.memory).2.2,
        s.calls ++ [⟨f, args⟩]⟩) := rfl

/-- A call does not depend on hidden temporaries. -/
theorem World.Spares.respects (h : W.Spares hidden) :
    Respects hidden fun (p : Word × List Word) s => W.invoke p.1 p.2 s := by
  intro p s t hst
  obtain ⟨hv, htemps, hmemory⟩ := h.reads p.1 p.2 s.memory hst.temps
  simp only [World.invoke_eq]
  rw [← hst.memory, ← hst.calls]
  exact ⟨hv, htemps, hmemory, rfl⟩

/-! ## Temporaries that are left alone -/

/-- The evaluation leaves some temporaries as they are. -/
def Evaluation.Preserves (kept : Temp → Prop) (e : Evaluation α) : Prop :=
  ∀ ⦃s a s'⦄, e s a s' → ∀ x, kept x → s'.temps x = s.temps x

namespace Evaluation.Preserves

variable {kept kept' : Temp → Prop} {e : Evaluation α} {r : Evaluation β}
  {run : Evaluation Unit}

theorem mono (h : e.Preserves kept) (hkept : ∀ x, kept' x → kept x) : e.Preserves kept' :=
  fun _ _ _ he x hx => h he x (hkept x hx)

theorem still (f : TreeState → α) : (Evaluation.still f).Preserves kept := by
  rintro s a s' ⟨-, rfl⟩ x _
  rfl

theorem pair (h : e.Preserves kept) (hr : r.Preserves kept) : (e.pair r).Preserves kept := by
  rintro s p s' ⟨t, he, hr'⟩ x hx
  rw [hr hr' x hx, h he x hx]

theorem andThen (h : e.Preserves kept) {f : α → TreeState → β × TreeState}
    (hf : ∀ a s x, kept x → (f a s).2.temps x = s.temps x) : (e.andThen f).Preserves kept := by
  rintro s b s' ⟨a, t, he, heq⟩ x hx
  have hfx := hf a t x hx
  rw [heq] at hfx
  rw [hfx, h he x hx]

theorem select (h : e.Preserves kept) (g : α → Option β) : (e.select g).Preserves kept := by
  rintro s b s' ⟨a, he, -⟩
  exact h he

theorem behind (h : run.Preserves kept) (he : e.Preserves kept) :
    (Evaluation.behind run e).Preserves kept := by
  rintro s a s' ⟨t, hrun, he'⟩ x hx
  rw [he he' x hx, h hrun x hx]

end Evaluation.Preserves

/-! ## Windows -/

/-- A window takes the place of an action.  Its branches stay inside, but for one at its
end that takes the place of a branch, to one of the labels `on` the spine. -/
inductive Window (hidden kept : Temp → Prop) (on : List Label) : Action → List Action → Prop where
  | mark (l : Label) : Window hidden kept on (.mark l) [.mark l]
  | effect {run : Evaluation Unit} {w : List Action} (closed : Closed w)
      (mirrors : Mirrors hidden run (Runs w)) (preserves : (Runs w).Preserves kept) :
      Window hidden kept on (.effect run) w
  | branch {choose choose' : Evaluation Label} {w : List Action} (closed : Closed w)
      (mirrors : Mirrors hidden choose (.behind (Runs w) choose'))
      (preserves : (Evaluation.behind (Runs w) choose').Preserves kept)
      (inside : ∀ {s l t}, choose' s l t → l ∈ on) :
      Window hidden kept on (.branch choose) (w ++ [.branch choose'])

section Flatten

variable {kept kept' : Temp → Prop} {on : List Label} {l : Label} {a : Action}
  {w spine rest tail : List Action} {ws wrest : List (List Action)} {n : Nat}

theorem Window.mono (h : Window hidden kept on a w) (hkept : ∀ x, kept' x → kept x) :
    Window hidden kept' on a w := by
  cases h with
  | mark l => exact .mark l
  | effect closed mirrors preserves => exact .effect closed mirrors (preserves.mono hkept)
  | branch closed mirrors preserves inside =>
    exact .branch closed mirrors (preserves.mono hkept) inside

theorem mem_marks_flatten (h : List.Forall₂ (Window hidden kept on) spine ws)
    (hl : l ∈ marks spine) : l ∈ marks ws.flatten := by
  induction h with
  | nil => exact hl
  | cons hw _ ih =>
    rw [List.flatten_cons, marks_append, List.mem_append]
    cases hw with
    | mark l' => simpa using (List.mem_cons.1 hl).imp_right ih
    | effect => exact .inr (ih hl)
    | branch => exact .inr (ih hl)

/-- A label is found at the windows of what it is found at in the spine. -/
theorem landing_flatten (h : List.Forall₂ (Window hidden kept on) spine ws)
    (hnodup : (marks ws.flatten).Nodup) (hl : landing l spine = some rest) :
    ∃ wrest, wrest <:+ ws ∧ landing l ws.flatten = some wrest.flatten ∧
      List.Forall₂ (Window hidden kept on) rest wrest := by
  induction h with
  | nil => cases hl
  | @cons a w spine ws hw hrest ih =>
    have hnodup' : (marks ws.flatten).Nodup := by
      rw [List.flatten_cons, marks_append] at hnodup
      exact (List.nodup_append.1 hnodup).2.1
    -- A label of a later window is not one of this window.
    have later (hl : landing l spine = some rest) : ∃ wrest, wrest <:+ w :: ws ∧
        landing l (w :: ws).flatten = some wrest.flatten ∧
        List.Forall₂ (Window hidden kept on) rest wrest := by
      obtain ⟨wrest, hsuffix, hland, hwindows⟩ := ih hnodup' hl
      refine ⟨wrest, hsuffix.trans (List.suffix_cons w ws), ?_, hwindows⟩
      rw [List.flatten_cons, landing_append_of_notMem, hland]
      intro hmem
      rw [List.flatten_cons, marks_append, List.nodup_append] at hnodup
      exact hnodup.2.2 l hmem l (mem_marks_of_landing hland) rfl
    cases hw with
    | mark l' =>
      rw [landing] at hl
      split at hl
      · next heq =>
        cases hl
        refine ⟨ws, List.suffix_cons _ ws, ?_, hrest⟩
        rw [List.flatten_cons, List.singleton_append, landing, if_pos heq]
      · exact later hl
    | effect => exact later hl
    | branch => exact later hl

/-- A closed part of the windows is run as it is alone. -/
theorem reaches_window (hnodup : (marks ws.flatten).Nodup) (hrest : (w ++ tail) :: wrest <:+ ws)
    (hrun : Runs w s () t) :
    ∃ n, Reaches ws.flatten n ((w ++ tail) ++ wrest.flatten) s (tail ++ wrest.flatten) t := by
  obtain ⟨front, rfl⟩ := hrest
  obtain ⟨n, h⟩ := hrun
  have heq : (front ++ (w ++ tail) :: wrest).flatten =
      front.flatten ++ w ++ (tail ++ wrest.flatten) := by
    simp
  rw [heq] at hnodup ⊢
  exact ⟨n, by simpa using h.embed hnodup⟩

/-- A run that goes on at the windows of what is left of the spine passes a closed part at
their front. -/
theorem exists_runs_window (hnodup : (marks ws.flatten).Nodup)
    (hrest : (w ++ tail) :: wrest <:+ ws) (hclosed : Closed w)
    (h : Reaches ws.flatten n ((w ++ tail) ++ wrest.flatten) s [] s') :
    ∃ k t, k ≤ n ∧ Runs w s () t ∧ Reaches ws.flatten k (tail ++ wrest.flatten) t [] s' := by
  obtain ⟨front, rfl⟩ := hrest
  have heq : (front ++ (w ++ tail) :: wrest).flatten =
      front.flatten ++ w ++ (tail ++ wrest.flatten) := by
    simp
  rw [heq] at hnodup h ⊢
  rw [List.append_assoc w tail] at h
  obtain ⟨m, k, t, hm, hk, hmk⟩ := Reaches.extract hclosed hnodup h (List.suffix_refl w)
  exact ⟨k, t, by omega, ⟨m, hm⟩, hk⟩

theorem exists_reaches_flatten (hwindows : List.Forall₂ (Window hidden kept on) spine ws)
    (hnodup : (marks ws.flatten).Nodup)
    (hrest : List.Forall₂ (Window hidden kept on) rest wrest) (hsuffix : wrest <:+ ws)
    (hst : s.Agrees hidden t) (h : Reaches spine n rest s [] s') :
    ∃ m t', Reaches ws.flatten m wrest.flatten t [] t' ∧ s'.Agrees hidden t' := by
  induction n generalizing rest wrest s t with
  | zero =>
    cases h
    cases hrest
    exact ⟨0, t, .refl _ _, hst⟩
  | succ n ih =>
    cases h with
    | mark h =>
      cases hrest with
      | @cons _ _ _ wrest hw hrest =>
        cases hw
        obtain ⟨m, t', hm, ht'⟩ := ih hrest ((List.suffix_cons _ _).trans hsuffix) hst h
        exact ⟨m + 1, t', .mark hm, ht'⟩
    | effect hrun h =>
      cases hrest with
      | @cons _ w _ wrest hw hrest =>
        cases hw with
        | effect closed mirrors preserves =>
          obtain ⟨u, hu, hagree⟩ := mirrors.forth hst hrun
          obtain ⟨m, t', hm, ht'⟩ := ih hrest ((List.suffix_cons _ _).trans hsuffix) hagree h
          have hw : (w ++ []) :: wrest <:+ ws := by rwa [List.append_nil]
          obtain ⟨k, hk⟩ := reaches_window hnodup hw hu
          rw [List.append_nil] at hk
          exact ⟨k + m, t', hk.trans hm, ht'⟩
    | branch hchoose hland h =>
      cases hrest with
      | cons hw hrest =>
        cases hw with
        | branch closed mirrors preserves inside =>
          obtain ⟨v, ⟨u, hu, hv⟩, hagree⟩ := mirrors.forth hst hchoose
          obtain ⟨wtarget, hwsuffix, hwland, htarget⟩ := landing_flatten hwindows hnodup hland
          obtain ⟨m, t', hm, ht'⟩ := ih htarget hwsuffix hagree h
          obtain ⟨k, hk⟩ := reaches_window hnodup hsuffix hu
          exact ⟨k + (m + 1), t', hk.trans (.branch hv hwland hm), ht'⟩

/-- The induction is on the length of the run and, since a window may be empty, on the
spine inside of it. -/
theorem exists_reaches_spine (hwindows : List.Forall₂ (Window hidden kept on) spine ws)
    (hnodup : (marks ws.flatten).Nodup) (hon : ∀ l ∈ on, l ∈ marks spine)
    (hrest : List.Forall₂ (Window hidden kept on) rest wrest) (hsuffix : wrest <:+ ws)
    (hst : s.Agrees hidden t) {k : Nat} (hkn : k < n)
    (h : Reaches ws.flatten k wrest.flatten t [] t') :
    ∃ m s', Reaches spine m rest s [] s' ∧ s'.Agrees hidden t' ∧
      ∀ x, kept x → t'.temps x = t.temps x := by
  induction n generalizing rest wrest s t k with
  | zero => omega
  | succ n ih =>
    induction hrest generalizing s t k with
    | nil =>
      cases h
      exact ⟨0, s, .refl _ _, hst, fun _ _ => rfl⟩
    | @cons _ w rest wrest hw hrest ihrest =>
      have htail : wrest <:+ ws := (List.suffix_cons w wrest).trans hsuffix
      cases hw with
      | mark l =>
        cases h with
        | mark h =>
          obtain ⟨m, s', hm, hs', hkept⟩ := ihrest htail hst (by omega) h
          exact ⟨m + 1, s', .mark hm, hs', hkept⟩
      | effect closed mirrors preserves =>
        -- The window may be empty, so what is left of the run need not be shorter.
        have hw : (w ++ []) :: wrest <:+ ws := by rwa [List.append_nil]
        obtain ⟨k', u, hk', hu, h'⟩ :=
          exists_runs_window hnodup hw closed (by simpa using h)
        obtain ⟨v, hv, hagree⟩ := mirrors.back hst hu
        obtain ⟨m, s', hm, hs', hkept⟩ := ihrest htail hagree (by omega) h'
        refine ⟨m + 1, s', .effect hv hm, hs', fun x hx => ?_⟩
        rw [hkept x hx, preserves hu x hx]
      | branch closed mirrors preserves inside =>
        obtain ⟨k', u, hk', hu, h'⟩ :=
          exists_runs_window hnodup hsuffix closed (by simpa using h)
        cases h' with
        | branch hchoose hland h' =>
          -- The branch itself was a step, so the induction on the length applies anywhere.
          obtain ⟨v, hv, hagree⟩ := mirrors.back hst ⟨u, hu, hchoose⟩
          obtain ⟨target, htarget⟩ := exists_landing (hon _ (inside hchoose))
          obtain ⟨wtarget, hwsuffix, hwland, hwindows'⟩ :=
            landing_flatten hwindows hnodup htarget
          rw [hland, Option.some.injEq] at hwland
          rw [hwland] at h'
          obtain ⟨m, s', hm, hs', hkept⟩ := ih hwindows' hwsuffix hagree (by omega) h'
          refine ⟨m + 1, s', .branch hv htarget hm, hs', fun x hx => ?_⟩
          rw [hkept x hx, preserves ⟨u, hu, hchoose⟩ x hx]

theorem Window.mem_of_choose (h : Window hidden kept on a w) {choose : Evaluation Label}
    (hmem : .branch choose ∈ w) (hl : choose s l t) : l ∈ on ∨ l ∈ marks w := by
  cases h with
  | mark => simp at hmem
  | effect closed => exact .inr (closed choose hmem s l t hl)
  | branch closed _ _ inside =>
    rcases List.mem_append.1 hmem with hmem | hmem
    · refine .inr ?_
      rw [marks_append]
      exact List.mem_append_left _ (closed choose hmem s l t hl)
    · simp only [List.mem_singleton, Action.branch.injEq] at hmem
      subst hmem
      exact .inl (inside hl)

theorem mem_flatten_of_choose (h : List.Forall₂ (Window hidden kept on) spine ws)
    {choose : Evaluation Label} (hmem : .branch choose ∈ ws.flatten) (hl : choose s l t) :
    l ∈ on ∨ l ∈ marks ws.flatten := by
  induction h with
  | nil => cases hmem
  | cons hw _ ih =>
    rw [List.flatten_cons, marks_append, List.mem_append]
    rcases List.mem_append.1 hmem with hmem | hmem
    · exact (hw.mem_of_choose hmem hl).imp_right .inl
    · exact (ih hmem).imp_right .inr

theorem closed_flatten (hwindows : List.Forall₂ (Window hidden kept on) spine ws)
    (hon : ∀ l ∈ on, l ∈ marks spine) : Closed ws.flatten := by
  intro choose hmem s l t hl
  rcases mem_flatten_of_choose hwindows hmem hl with hl | hl
  · exact mem_marks_flatten hwindows (hon l hl)
  · exact hl

/-- **A spine is mirrored by the windows of its actions**, run as one program. -/
theorem mirrors_flatten (hwindows : List.Forall₂ (Window hidden kept on) spine ws)
    (hnodup : (marks ws.flatten).Nodup) (hon : ∀ l ∈ on, l ∈ marks spine) :
    Mirrors hidden (Runs spine) (Runs ws.flatten) where
  forth := by
    rintro s t a s' hst ⟨n, h⟩
    obtain ⟨m, t', hm, ht'⟩ :=
      exists_reaches_flatten hwindows hnodup hwindows (List.suffix_refl ws) hst h
    exact ⟨t', ⟨m, hm⟩, ht'⟩
  back := by
    rintro s t a t' hst ⟨n, h⟩
    obtain ⟨m, s', hm, hs', -⟩ := exists_reaches_spine hwindows hnodup hon hwindows
      (List.suffix_refl ws) hst (Nat.lt_succ_self n) h
    exact ⟨s', ⟨m, hm⟩, hs'⟩

theorem preserves_flatten (hwindows : List.Forall₂ (Window hidden kept on) spine ws)
    (hnodup : (marks ws.flatten).Nodup) (hon : ∀ l ∈ on, l ∈ marks spine) :
    (Runs ws.flatten).Preserves kept := by
  rintro s a s' ⟨n, h⟩
  obtain ⟨-, -, -, -, hkept⟩ := exists_reaches_spine hwindows hnodup hon hwindows
    (List.suffix_refl ws) (.refl s) (Nat.lt_succ_self n) h
  exact hkept

end Flatten

end Lowering
