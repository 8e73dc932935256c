import Lowering.Proofs.Tree.Mirror
import Lowering.Proofs.Tree.Pure

/-!
# Staged code

An evaluation is *staged* as a list of statements and a value that is left: running the
statements and then evaluating what is left mirrors the evaluation.  Staged code is put
together as evaluations are.  Two staged evaluations can be run one after the other, effects
first, if the effects of the second one leave the value of the first one alone.

## Main definitions

* `Stages` — statements and what is left stage an evaluation.
* `Stages.pair`, `Stages.andThen`, `Stages.behind` — staged code is put together.
* `Stages.save`, `Stages.finish` — the value is stored, or made into a last statement.
* `Tiles` — code that takes the place of a statement on a spine.
-/

namespace Lowering

open Evaluation

variable {α β : Type} {W : World} {hidden own own' : Temp → Prop} {on : List Label}

/-! ## Laws of evaluations -/

section Laws

variable {e : Evaluation α} {r : Evaluation β} {run run' : Evaluation Unit}

theorem behind_behind : behind (behind run run') e = behind run (behind run' e) := by
  funext s a s'
  refine propext ⟨?_, ?_⟩
  · rintro ⟨t, ⟨u, hrun, hrun'⟩, he⟩
    exact ⟨u, hrun, t, hrun', he⟩
  · rintro ⟨u, hrun, t, hrun', he⟩
    exact ⟨t, ⟨u, hrun, hrun'⟩, he⟩

theorem andThen_behind (f : α → TreeState → β × TreeState) :
    (behind run e).andThen f = behind run (e.andThen f) := by
  funext s b s'
  refine propext ⟨?_, ?_⟩
  · rintro ⟨a, t, ⟨u, hrun, he⟩, hf⟩
    exact ⟨u, hrun, a, t, he, hf⟩
  · rintro ⟨u, hrun, a, t, he, hf⟩
    exact ⟨a, t, ⟨u, hrun, he⟩, hf⟩

theorem select_behind (g : α → Option β) :
    (behind run e).select g = behind run (e.select g) := by
  funext s b s'
  refine propext ⟨?_, ?_⟩
  · rintro ⟨a, ⟨u, hrun, he⟩, hg⟩
    exact ⟨u, hrun, a, he, hg⟩
  · rintro ⟨u, hrun, a, he, hg⟩
    exact ⟨a, ⟨u, hrun, he⟩, hg⟩

theorem pair_behind_left : (behind run e).pair r = behind run (e.pair r) := by
  funext s p s'
  refine propext ⟨?_, ?_⟩
  · rintro ⟨t, ⟨u, hrun, he⟩, hr⟩
    exact ⟨u, hrun, t, he, hr⟩
  · rintro ⟨u, hrun, t, he, hr⟩
    exact ⟨t, ⟨u, hrun, he⟩, hr⟩

/-- What a run leaves alone may be read behind it. -/
theorem pair_behind_right {f : TreeState → α} (hf : ∀ {s s'}, run s () s' → f s' = f s) :
    (still f).pair (behind run r) = behind run ((still f).pair r) := by
  funext s p s'
  refine propext ⟨?_, ?_⟩
  · rintro ⟨t, ⟨hp, rfl⟩, u, hrun, hr⟩
    exact ⟨u, hrun, u, ⟨by rw [hp, hf hrun], rfl⟩, hr⟩
  · rintro ⟨u, hrun, t, ⟨hp, rfl⟩, hr⟩
    exact ⟨s, ⟨by rw [hp, hf hrun], rfl⟩, t, hrun, hr⟩

theorem behind_done : behind run (still fun _ => ()) = run := by
  funext s a s'
  refine propext ⟨?_, ?_⟩
  · rintro ⟨t, hrun, -, rfl⟩
    exact hrun
  · exact fun hrun => ⟨s', hrun, rfl, rfl⟩

theorem runs_nil_behind : behind (Runs []) e = e := by
  funext s a s'
  refine propext ⟨?_, ?_⟩
  · rintro ⟨t, hrun, he⟩
    rw [runs_nil.1 hrun] at he
    exact he
  · exact fun he => ⟨s, runs_nil.2 rfl, he⟩

theorem runs_append_eq {c₁ c₂ : List Action} (h₁ : Closed c₁) (h₂ : Closed c₂)
    (hnodup : (marks (c₁ ++ c₂)).Nodup) : Runs (c₁ ++ c₂) = behind (Runs c₁) (Runs c₂) := by
  funext s _ s'
  exact propext (runs_append h₁ h₂ hnodup)

theorem runs_effect_eq : Runs [.effect run] = run := by
  funext s _ s'
  exact propext runs_effect

/-- Store the value in a hidden temporary and read it from there. -/
theorem Mirrors.save {e e' : Evaluation Word} {x : Temp} (h : Mirrors hidden e e')
    (hx : hidden x) :
    Mirrors hidden e (Evaluation.behind (e'.andThen fun v s => ((), s.setTemp x v))
      (Evaluation.still fun s => s.temps x)) where
  forth := by
    intro s t a s' hst he
    obtain ⟨t', he', hagree⟩ := h.forth hst he
    refine ⟨t'.setTemp x a, ⟨_, ⟨a, t', he', rfl⟩, ?_, rfl⟩, hagree.setHidden hx a⟩
    simp [TreeState.setTemp]
  back := by
    rintro s t a t' hst ⟨_, ⟨v, u, he', heq⟩, hv, rfl⟩
    cases heq
    obtain ⟨s', he, hagree⟩ := h.back hst he'
    have hav : a = v := by simpa [TreeState.setTemp] using hv
    exact ⟨s', hav ▸ he, hagree.setHidden hx v⟩

end Laws

/-! ## Staged evaluations -/

section Staged

variable {labels labels' : List Label} {e v : Evaluation α} {r w : Evaluation β}
  {run : Evaluation Unit} {c d : List Stmt}

theorem actionsAll_append :
    Stmt.actionsAll W (c ++ d) = Stmt.actionsAll W c ++ Stmt.actionsAll W d :=
  List.flatMap_append

theorem actionsAll_nil : Stmt.actionsAll W [] = [] := rfl

theorem actionsAll_singleton (last : Stmt) : Stmt.actionsAll W [last] = last.actions W := by
  simp [Stmt.actionsAll]

/-- The effects `c` and the value `v` that is left behind them stage the evaluation `e`.  The
effects define the given labels, and of the hidden temporaries they change their own only. -/
structure Stages (W : World) (hidden own : Temp → Prop) (labels : List Label)
    (e v : Evaluation α) (c : List Stmt) : Prop where
  defines : marks (Stmt.actionsAll W c) = labels
  closed : Closed (Stmt.actionsAll W c)
  mirrors : Mirrors hidden e (.behind (Runs (Stmt.actionsAll W c)) v)
  preserves : (Runs (Stmt.actionsAll W c)).Preserves fun x => hidden x ∧ ¬own x
  value : v.Preserves hidden

namespace Stages

theorem mono (h : Stages W hidden own labels e v c) (hown : ∀ x, own x → own' x) :
    Stages W hidden own' labels e v c :=
  { h with preserves := h.preserves.mono fun x hx => ⟨hx.1, fun hx' => hx.2 (hown x hx')⟩ }

theorem plain (hm : Mirrors hidden e v) (hv : v.Preserves hidden) :
    Stages W hidden own [] e v [] where
  defines := rfl
  closed := closed_nil
  mirrors := by
    rw [actionsAll_nil, runs_nil_behind]
    exact hm
  preserves := by
    intro s a s' hrun x _
    rw [runs_nil.1 hrun]
  value := hv

/-- Effects one after another. -/
theorem runs_eq (h : Stages W hidden own labels e v c) (h' : Stages W hidden own labels' r w d)
    (hnodup : (labels ++ labels').Nodup) :
    Runs (Stmt.actionsAll W (c ++ d)) =
      Evaluation.behind (Runs (Stmt.actionsAll W c)) (Runs (Stmt.actionsAll W d)) := by
  rw [actionsAll_append]
  refine runs_append_eq h.closed h'.closed ?_
  rw [marks_append, h.defines, h'.defines]
  exact hnodup

theorem andThen (h : Stages W hidden own labels e v c) {f : α → TreeState → β × TreeState}
    (hf : Respects hidden f) (hkeep : ∀ a s x, hidden x → (f a s).2.temps x = s.temps x) :
    Stages W hidden own labels (e.andThen f) (v.andThen f) c :=
  { h with
    mirrors := by
      rw [← andThen_behind]
      exact h.mirrors.andThen hf
    value := h.value.andThen hkeep }

theorem select (h : Stages W hidden own labels e v c) (g : α → Option β) :
    Stages W hidden own labels (e.select g) (v.select g) c :=
  { h with
    mirrors := by
      rw [← select_behind]
      exact h.mirrors.select g
    value := h.value.select g }

/-- **One evaluation after another**, where the effects of the second leave the value of the
first alone. -/
theorem pair (h : Stages W hidden own labels e v c) (h' : Stages W hidden own labels' r w d)
    (hnodup : (labels ++ labels').Nodup)
    (hcommute : d = [] ∨ ∃ f, v = Evaluation.still f ∧
      ∀ {s s'}, Runs (Stmt.actionsAll W d) s () s' → f s' = f s) :
    Stages W hidden own (labels ++ labels') (e.pair r) (v.pair w) (c ++ d) where
  defines := by rw [actionsAll_append, marks_append, h.defines, h'.defines]
  closed := by
    rw [actionsAll_append]
    exact h.closed.append h'.closed
  mirrors := by
    have hm := h.mirrors.pair h'.mirrors
    rw [pair_behind_left] at hm
    rw [h.runs_eq h' hnodup, behind_behind]
    -- The value of the first is read behind the effects of the second.
    rcases hcommute with rfl | ⟨f, rfl, hf⟩
    · rw [actionsAll_nil, runs_nil_behind] at hm ⊢
      exact hm
    · rw [pair_behind_right hf] at hm
      exact hm
  preserves := by
    rw [h.runs_eq h' hnodup]
    exact h.preserves.behind h'.preserves
  value := h.value.pair h'.value

/-- Something is run in front of an evaluation. -/
theorem behind (h : Stages W hidden own labels run (Evaluation.still fun _ => ()) c)
    (h' : Stages W hidden own labels' e v d) (hnodup : (labels ++ labels').Nodup) :
    Stages W hidden own (labels ++ labels') (.behind run e) v (c ++ d) where
  defines := by rw [actionsAll_append, marks_append, h.defines, h'.defines]
  closed := by
    rw [actionsAll_append]
    exact h.closed.append h'.closed
  mirrors := by
    have hm := h.mirrors
    rw [behind_done] at hm
    rw [h.runs_eq h' hnodup, behind_behind]
    exact hm.behind h'.mirrors
  preserves := by
    rw [h.runs_eq h' hnodup]
    exact h.preserves.behind h'.preserves
  value := h'.value

/-- A last statement that does something with the value is run behind its evaluation. -/
theorem runs_finish (h : Stages W hidden own labels e v c) (hnodup : labels.Nodup)
    {f : α → TreeState → Unit × TreeState} {last : Stmt}
    (hlast : last.actions W = [.effect (v.andThen f)]) :
    Runs (Stmt.actionsAll W (c ++ [last])) =
      (Evaluation.behind (Runs (Stmt.actionsAll W c)) v).andThen f := by
  have hmarks : (marks (Stmt.actionsAll W c ++ [.effect (v.andThen f)])).Nodup := by
    simpa [h.defines] using hnodup
  rw [actionsAll_append, actionsAll_singleton, hlast,
    runs_append_eq h.closed (closed_effect _) hmarks, runs_effect_eq, andThen_behind]

/-- A last statement does something with the value. -/
theorem finish (h : Stages W hidden own labels e v c) (hnodup : labels.Nodup)
    {f : α → TreeState → Unit × TreeState} (hf : Respects hidden f)
    (hkeep : ∀ a s x, hidden x ∧ ¬own x → (f a s).2.temps x = s.temps x) {last : Stmt}
    (hlast : last.actions W = [.effect (v.andThen f)]) :
    Stages W hidden own labels (e.andThen f) (Evaluation.still fun _ => ()) (c ++ [last]) where
  defines := by
    rw [actionsAll_append, actionsAll_singleton, hlast, marks_append, h.defines]
    exact List.append_nil labels
  closed := by
    rw [actionsAll_append, actionsAll_singleton, hlast]
    exact h.closed.append (closed_effect _)
  mirrors := by
    rw [behind_done, h.runs_finish hnodup hlast]
    exact h.mirrors.andThen hf
  preserves := by
    rw [h.runs_finish hnodup hlast]
    exact (h.preserves.behind (h.value.mono fun x hx => hx.1)).andThen hkeep
  value := .still _

/-- The value is stored in a hidden temporary of its own. -/
theorem save {e : Evaluation Word} {value : Expr} {x : Temp}
    (h : Stages W hidden own labels e (value.means W) c) (hnodup : labels.Nodup) (hx : hidden x)
    (hown : own x) :
    Stages W hidden own labels e (Evaluation.still fun s => s.temps x)
      (c ++ [.move (.temp x) value]) := by
  have hlast : (Stmt.move (.temp x) value).actions W =
      [.effect ((value.means W).andThen fun v s => ((), s.setTemp x v))] := rfl
  have hkeep : ∀ (v : Word) (s : TreeState) y, hidden y ∧ ¬own y →
      (s.setTemp x v).temps y = s.temps y := by
    intro v s y hy
    have hyx : y ≠ x := fun heq => hy.2 (heq ▸ hown)
    simp [TreeState.setTemp, hyx]
  have hstore := h.finish hnodup (fun v s t hst => ⟨rfl, hst.setTemp x v⟩) hkeep hlast
  refine { hstore with mirrors := ?_, value := .still _ }
  rw [h.runs_finish hnodup hlast]
  exact h.mirrors.save hx

end Stages

/-! ## Spines -/

/-- The code takes the place of a spine: each action has a window in it. -/
structure Tiles (W : World) (hidden own : Temp → Prop) (on labels : List Label)
    (spine : List Action) (c : List Stmt) : Prop where
  defines : marks (Stmt.actionsAll W c) = labels
  windows : ∃ ws, List.Forall₂ (Window hidden (fun x => hidden x ∧ ¬own x) on) spine ws ∧
    ws.flatten = Stmt.actionsAll W c

theorem Stages.tiles (h : Stages W hidden own labels run (Evaluation.still fun _ => ()) c) :
    Tiles W hidden own on labels [.effect run] c where
  defines := h.defines
  windows := by
    have hm := h.mirrors
    rw [behind_done] at hm
    exact ⟨[Stmt.actionsAll W c], .cons (.effect h.closed hm h.preserves) .nil, by simp⟩

/-- A last statement branches to a label on the spine. -/
theorem Stages.tiles_branch {choose choose' : Evaluation Label}
    (h : Stages W hidden own labels choose choose' c) {last : Stmt}
    (hlast : last.actions W = [.branch choose']) (hon : ∀ {s l t}, choose' s l t → l ∈ on) :
    Tiles W hidden own on labels [.branch choose] (c ++ [last]) where
  defines := by
    rw [actionsAll_append, actionsAll_singleton, hlast, marks_append, h.defines]
    exact List.append_nil labels
  windows := by
    have hwindow := Window.branch h.closed h.mirrors
      (h.preserves.behind (h.value.mono fun x hx => hx.1)) hon
    refine ⟨[Stmt.actionsAll W c ++ [.branch choose']], .cons hwindow .nil, ?_⟩
    rw [actionsAll_append, actionsAll_singleton, hlast, List.flatten_singleton]

namespace Tiles

variable {spine spine' : List Action}

theorem label (l : Label) : Tiles W hidden own on [l] [.mark l] [.label l] where
  defines := rfl
  windows := ⟨[[.mark l]], .cons (.mark l) .nil, rfl⟩

theorem mono (h : Tiles W hidden own on labels spine c) (hown : ∀ x, own x → own' x) :
    Tiles W hidden own' on labels spine c where
  defines := h.defines
  windows := by
    obtain ⟨ws, hws, heq⟩ := h.windows
    exact ⟨ws, hws.imp fun _ _ hw => hw.mono fun x hx => ⟨hx.1, fun hx' => hx.2 (hown x hx')⟩, heq⟩

theorem append (h : Tiles W hidden own on labels spine c)
    (h' : Tiles W hidden own on labels' spine' d) :
    Tiles W hidden own on (labels ++ labels') (spine ++ spine') (c ++ d) where
  defines := by rw [actionsAll_append, marks_append, h.defines, h'.defines]
  windows := by
    obtain ⟨ws, hws, heq⟩ := h.windows
    obtain ⟨ws', hws', heq'⟩ := h'.windows
    refine ⟨ws ++ ws', List.rel_append hws hws', ?_⟩
    rw [List.flatten_append, heq, heq', actionsAll_append]

/-- A spine whose branches stay on it is staged by code that takes its place. -/
theorem stages (h : Tiles W hidden own on labels spine c) (hnodup : labels.Nodup)
    (hon : ∀ l ∈ on, l ∈ marks spine) :
    Stages W hidden own labels (Runs spine) (Evaluation.still fun _ => ()) c := by
  obtain ⟨ws, hws, heq⟩ := h.windows
  have hmarks : (marks ws.flatten).Nodup := by rwa [heq, h.defines]
  refine ⟨h.defines, ?_, ?_, ?_, .still _⟩
  · rw [← heq]
    exact closed_flatten hws hon
  · rw [behind_done, ← heq]
    exact mirrors_flatten hws hmarks hon
  · rw [← heq]
    exact preserves_flatten hws hmarks hon

end Tiles

end Staged

end Lowering
