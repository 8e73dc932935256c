import Lowering.Proofs.Canonical.Fault
import Lowering.Proofs.Tree.Event

/-!
# Effects keep their order

Staging moves effects to the front and puts copies to fresh temporaries between them.  Without
those copies, what happens in the statements that it gives is what happens in the source: in the
same order, with nothing left out and nothing done twice.  Each fresh temporary is written by one
statement, and occurs in none of those before it.

The code for two operands is put together from pieces that own different fresh temporaries: a piece
mentions old temporaries and its own only.

## Main definitions

* `SavedOnce` — a temporary is written once, before it is read.
* `Introduces`, `Apart` — so are all temporaries that a piece of code owns, and two pieces own
  different ones.
* `Staged.Orders`, `Arranges` — the code keeps the events of its source.
* `canonicalize_keeps_effects` — the main result.
-/

namespace Lowering

open Staged

/-! ## Fresh temporaries -/

/-- One statement writes the temporary.  Nothing before it mentions the temporary, nor does what is
written, and nothing behind it writes the temporary again. -/
def SavedOnce (t : Temp) (code : List Stmt) : Prop :=
  ∃ front source back, code = front ++ .move (.temp t) source :: back ∧
    (∀ s ∈ front, t ∉ s.temps) ∧ t ∉ source.temps ∧ ∀ s ∈ back, .write t ∉ s.events

section

variable {t : Temp} {c d : List Stmt}

theorem SavedOnce.append_right (h : SavedOnce t c) (hd : ∀ s ∈ d, .write t ∉ s.events) :
    SavedOnce t (c ++ d) := by
  obtain ⟨front, source, back, rfl, hfront, hsource, hback⟩ := h
  refine ⟨front, source, back ++ d, by simp, hfront, hsource, fun s hs => ?_⟩
  exact (List.mem_append.1 hs).elim (hback s) (hd s)

theorem SavedOnce.append_left (h : SavedOnce t d) (hc : ∀ s ∈ c, t ∉ s.temps) :
    SavedOnce t (c ++ d) := by
  obtain ⟨front, source, back, rfl, hfront, hsource, hback⟩ := h
  refine ⟨c ++ front, source, back, by simp, fun s hs => ?_, hsource, hback⟩
  exact (List.mem_append.1 hs).elim (hc s) (hfront s)

end

/-- Two pieces of code own different temporaries, none of which is old. -/
structure Apart (base : Nat) (own own' : Temp → Prop) : Prop where
  new : ∀ t, own t ∨ own' t → ¬t.Within base
  disjoint : ∀ t, own t → ¬own' t

/-- What was drawn first, and what was drawn then. -/
theorem apart_drawn {base lo mid hi : Nat} (hbase : base ≤ lo) (hlo : lo ≤ mid) :
    Apart base (Temp.Drawn lo mid) (Temp.Drawn mid hi) where
  new := by
    rintro t (ht | ht)
    · exact ht.not_within hbase
    · exact ht.not_within (Nat.le_trans hbase hlo)
  disjoint _ ht := ht.within.not_drawn

/-- The first piece owns one more temporary. -/
theorem Apart.insert {base : Nat} {own own' : Temp → Prop} (h : Apart base own own') {x : Temp}
    (hnew : ¬x.Within base) (hown : ¬own' x) : Apart base (fun t => own t ∨ t = x) own' where
  new := by
    rintro t ((ht | rfl) | ht)
    · exact h.new t (.inl ht)
    · exact hnew
    · exact h.new t (.inr ht)
  disjoint := by
    rintro t (ht | rfl)
    · exact h.disjoint t ht
    · exact hown

/-- The code writes its own temporaries once, before it reads them, and mentions no others but
those within the counter. -/
structure Introduces (base : Nat) (own : Temp → Prop) (code : List Stmt) : Prop where
  saved : ∀ t, own t → SavedOnce t code
  temps : ∀ s ∈ code, ∀ t ∈ s.temps, t.Within base ∨ own t

namespace Introduces

variable {base : Nat} {own own' : Temp → Prop} {c d : List Stmt}

theorem nil (n : Nat) : Introduces base (Temp.Drawn n n) [] where
  saved _ ht := absurd ht Temp.not_drawn_self
  temps := by simp

theorem congr (h : Introduces base own c) (hown : ∀ t, own t ↔ own' t) :
    Introduces base own' c where
  saved t ht := h.saved t ((hown t).2 ht)
  temps s hs t ht := (h.temps s hs t ht).imp_right (hown t).1

/-- A temporary that is neither old nor owned does not occur. -/
theorem notMem_temps (h : Introduces base own c) {t : Temp} (hold : ¬t.Within base)
    (hown : ¬own t) : ∀ s ∈ c, t ∉ s.temps := by
  intro s hs ht
  exact (h.temps s hs t ht).elim hold hown

/-- Pieces that own different temporaries, one after another. -/
theorem append (h : Introduces base own c) (h' : Introduces base own' d)
    (hapart : Apart base own own') : Introduces base (fun t => own t ∨ own' t) (c ++ d) where
  saved := by
    rintro t (ht | ht)
    · have hnotMem := h'.notMem_temps (hapart.new t (.inl ht)) (hapart.disjoint t ht)
      refine (h.saved t ht).append_right fun s hs hwrite => ?_
      exact hnotMem s hs (s.mem_temps_of_write hwrite)
    · refine (h'.saved t ht).append_left (h.notMem_temps (hapart.new t (.inr ht)) ?_)
      exact fun ht' => hapart.disjoint t ht' ht
  temps := by
    intro s hs t ht
    rcases List.mem_append.1 hs with hs | hs
    · exact (h.temps s hs t ht).imp_right .inl
    · exact (h'.temps s hs t ht).imp_right .inr

/-- A last statement that writes none of the temporaries that the code owns. -/
theorem concat (h : Introduces base own c) {last : Stmt}
    (htemps : ∀ t ∈ last.temps, t.Within base ∨ own t)
    (hwrites : ∀ t, own t → .write t ∉ last.events) : Introduces base own (c ++ [last]) where
  saved t ht := (h.saved t ht).append_right (by simpa using hwrites t ht)
  temps := by
    intro s hs
    rcases List.mem_append.1 hs with hs | hs
    · exact h.temps s hs
    · rw [List.mem_singleton.1 hs]
      exact htemps

/-- A last statement that writes one more temporary. -/
theorem save (h : Introduces base own c) {x : Temp} {v : Expr}
    (hv : ∀ t ∈ v.temps, t.Within base ∨ own t) (hwrites : ∀ t, .write t ∉ v.events)
    (hold : ¬x.Within base) (hown : ¬own x) :
    Introduces base (fun t => own t ∨ t = x) (c ++ [.move (.temp x) v]) where
  saved := by
    rintro t (ht | rfl)
    · refine (h.saved t ht).append_right ?_
      have hne : t ≠ x := fun heq => hown (heq ▸ ht)
      simp [Stmt.events, Expr.eventsInto, hwrites, hne]
    · refine ⟨c, v, [], rfl, h.notMem_temps hold hown, fun ht => ?_, by simp⟩
      exact (hv t ht).elim hold hown
  temps := by
    intro s hs t ht
    rcases List.mem_append.1 hs with hs | hs
    · exact (h.temps s hs t ht).imp_right .inl
    · rw [List.mem_singleton.1 hs] at ht
      rcases List.mem_cons.1 ht with rfl | ht
      · exact .inr (.inr rfl)
      · exact (hv t ht).imp_right .inl

end Introduces

/-! ## What is left of an expression -/

/-- Nothing happens in what is left, except that it may be a call. -/
def Expr.Settled (v : Expr) : Prop :=
  v.events = [] ∨ v.isCall = true ∧ ∃ n, v.events = [.call n]

theorem Expr.Settled.write_notMem {v : Expr} (h : v.Settled) (t : Temp) : .write t ∉ v.events := by
  rcases h with h | ⟨-, n, h⟩ <;> simp [h]

theorem Expr.Settled.filter_isOld {v : Expr} (h : v.Settled) (base : Nat) :
    v.events.filter (·.isOld base) = v.events := by
  rcases h with h | ⟨-, n, h⟩ <;> simp [h, Event.isOld]

/-- How to read what is left: what happens in it, which temporaries it mentions, and what is known
of it. -/
structure Reading (γ : Type) where
  events : γ → List Event
  temps : γ → List Temp
  form : γ → Prop

namespace Reading

/-- An expression. -/
def expr : Reading Expr := ⟨Expr.events, Expr.temps, Expr.Settled⟩

/-- An expression in which nothing happens. -/
def operand : Reading Expr := ⟨Expr.events, Expr.temps, fun v => v.events = []⟩

/-- Some number of expressions in which nothing happens. -/
def operands (n : Nat) : Reading (List Expr) :=
  ⟨Expr.eventsAll, Expr.tempsAll, fun vs => Expr.eventsAll vs = [] ∧ vs.length = n⟩

/-- An operand, and what is left of what is evaluated behind it. -/
def pair {γ : Type} (r : Reading γ) : Reading (Expr × γ) where
  events p := p.1.events ++ r.events p.2
  temps p := p.1.temps ++ r.temps p.2
  form p := p.1.events = [] ∧ r.form p.2

end Reading

/-- The effects and then what is left keep the events of the source. -/
structure Staged.Orders {γ : Type} (base : Nat) (source : List Event) (r : Reading γ)
    (own : Temp → Prop) (staged : Staged γ) : Prop where
  events : oldEvents base staged.effects ++ r.events staged.value = source
  effects : Introduces base own staged.effects
  value : ∀ t ∈ r.temps staged.value, t.Within base ∨ own t
  form : r.form staged.value

/-- The statements keep the events of the source. -/
structure Arranges (base : Nat) (source : List Event) (own : Temp → Prop) (code : List Stmt) :
    Prop extends Introduces base own code where
  events : oldEvents base code = source

section

variable {γ δ : Type} {base : Nat} {source source' : List Event} {r : Reading γ}
  {own own' : Temp → Prop} {c d : List Stmt} {staged : Staged γ}

namespace Staged.Orders

theorem congr (h : Orders base source r own staged) (hown : ∀ t, own t ↔ own' t) :
    Orders base source r own' staged :=
  { h with
    effects := h.effects.congr hown
    value := fun t ht => (h.value t ht).imp_right (hown t).1 }

theorem plain {v : γ} (n : Nat) (hevents : r.events v = source)
    (htemps : ∀ t ∈ r.temps v, t.Within base) (hform : r.form v) :
    Orders base source r (Temp.Drawn n n) (Staged.plain v) where
  events := hevents
  effects := .nil n
  value t ht := .inl (htemps t ht)
  form := hform

theorem expr {staged : Staged Expr} (h : Orders base source .operand own staged) :
    Orders base source .expr own staged :=
  { h with form := .inl h.form }

/-- What is left is stored in one more temporary. -/
theorem saveIn {staged : Staged Expr} {x : Temp} (h : Orders base source .expr own staged)
    (hold : ¬x.Within base) (hown : ¬own x) :
    Orders base source .operand (fun t => own t ∨ t = x) (staged.saveIn x) where
  events := by
    have hsettled : staged.value.Settled := h.form
    have hmove : oldEvents base [.move (.temp x) staged.value] = staged.value.events := by
      have hx : (Event.write x).isOld base = false := by
        rw [← Bool.not_eq_true, Event.isOld_write]
        exact hold
      rw [oldEvents_singleton, Stmt.events, Expr.eventsInto, List.filter_append,
        hsettled.filter_isOld]
      simp [hx]
    rw [Staged.saveIn, oldEvents_append, hmove]
    exact (List.append_nil _).trans h.events
  effects := h.effects.save h.value (Expr.Settled.write_notMem h.form) hold hown
  value := by
    intro t ht
    exact .inr (.inr (List.mem_singleton.1 ht))
  form := rfl

/-- An operand and what is evaluated behind it, with effects that own different temporaries. -/
theorem pair {head : Staged Expr} (h : Orders base source .operand own head)
    (h' : Orders base source' r own' staged) (hapart : Apart base own own') :
    Orders base (source ++ source') r.pair (fun t => own t ∨ own' t)
      ⟨head.effects ++ staged.effects, head.value, staged.value⟩ where
  events := by
    have hquiet : head.value.events = [] := h.form
    have hhead : oldEvents base head.effects ++ head.value.events = source := h.events
    rw [hquiet, List.append_nil] at hhead
    rw [oldEvents_append, ← hhead, ← h'.events]
    simp [Reading.pair, hquiet]
  effects := h.effects.append h'.effects hapart
  value := by
    intro t ht
    rcases List.mem_append.1 ht with ht | ht
    · exact (h.value t ht).imp_right .inl
    · exact (h'.value t ht).imp_right .inr
  form := ⟨h.form, h'.form⟩

/-- Something is built from what is left, in which some more happens. -/
theorem map (h : Orders base source r own staged) {r' : Reading δ} (g : γ → δ)
    (more : List Event) (hevents : r.form staged.value →
      r'.events (g staged.value) = r.events staged.value ++ more)
    (htemps : r'.temps (g staged.value) ⊆ r.temps staged.value)
    (hform : r.form staged.value → r'.form (g staged.value)) :
    Orders base (source ++ more) r' own ⟨staged.effects, g staged.value⟩ where
  events := by rw [hevents h.form, ← List.append_assoc, h.events]
  effects := h.effects
  value t ht := h.value t (htemps ht)
  form := hform h.form

/-- A last statement is made from what is left, in which some more happens. -/
theorem finish (h : Orders base source r own staged) (last : γ → Stmt) (more : List Event)
    (hevents : r.form staged.value →
      (last staged.value).events = r.events staged.value ++ more)
    (hlast : r.form staged.value → (r.events staged.value ++ more).filter (·.isOld base) =
      r.events staged.value ++ more)
    (htemps : ∀ t ∈ (last staged.value).temps, t.Within base ∨ t ∈ r.temps staged.value)
    (hold : ∀ t, own t → ¬t.Within base) :
    Arranges base (source ++ more) own (staged.finish last) where
  toIntroduces := by
    refine h.effects.concat (fun t ht => ?_) fun t ht hwrite => ?_
    · exact (htemps t ht).elim .inl (h.value t)
    · rw [hevents h.form, ← hlast h.form, List.mem_filter] at hwrite
      exact hold t ht (Event.isOld_write.1 hwrite.2)
  events := by
    rw [Staged.finish, oldEvents_append, oldEvents_singleton, hevents h.form, hlast h.form,
      ← List.append_assoc, h.events]

/-- Statements in front of what is staged. -/
theorem behind (h' : Orders base source' r own' staged) (h : Arranges base source own c)
    (hapart : Apart base own own') :
    Orders base (source ++ source') r (fun t => own t ∨ own' t)
      ⟨c ++ staged.effects, staged.value⟩ where
  events := by rw [oldEvents_append, h.events, List.append_assoc, h'.events]
  effects := h.toIntroduces.append h'.effects hapart
  value t ht := (h'.value t ht).imp_right .inr
  form := h'.form

end Staged.Orders

namespace Arranges

theorem congr (h : Arranges base source own c) (hown : ∀ t, own t ↔ own' t) :
    Arranges base source own' c :=
  ⟨h.toIntroduces.congr hown, h.events⟩

theorem append (h : Arranges base source own c) (h' : Arranges base source' own' d)
    (hapart : Apart base own own') :
    Arranges base (source ++ source') (fun t => own t ∨ own' t) (c ++ d) where
  toIntroduces := h.toIntroduces.append h'.toIntroduces hapart
  events := by rw [oldEvents_append, h.events, h'.events]

end Arranges

end

/-! ## Staging -/

/-- What is staged keeps the events of the source, and owns the temporaries that were drawn. -/
def Staged.Retains {γ : Type} (base : Nat) (source : List Event) (r : Reading γ) (lo hi : Nat)
    (staged : Staged γ) : Prop :=
  base ≤ lo → staged.Orders base source r (Temp.Drawn lo hi)

/-- The statements keep the events of the source, and own the temporaries that were drawn. -/
def Arranged (base : Nat) (source : List Event) (lo hi : Nat) (code : List Stmt) : Prop :=
  base ≤ lo → Arranges base source (Temp.Drawn lo hi) code

section

variable {γ δ : Type} {base lo mid hi : Nat} {source source' more : List Event} {r : Reading γ}

theorem Arranged.append {c d : List Stmt} (h : Arranged base source lo mid c)
    (h' : Arranged base source' mid hi d) (hlo : lo ≤ mid) (hhi : mid ≤ hi) :
    Arranged base (source ++ source') lo hi (c ++ d) := by
  intro hbase
  have happend := (h hbase).append (h' (Nat.le_trans hbase hlo)) (apart_drawn hbase hlo)
  exact happend.congr fun t => Temp.drawn_or_drawn hlo hhi

theorem retains_operand (e : Expr) {stage : Fresh (Staged Expr)}
    (h : stage.Yields (Retains base source .expr)) :
    (operand e stage).Yields (Retains base source .operand) := by
  unfold Staged.operand
  split
  · refine .bind .temp fun t => .bind h fun staged => .pure fun hi mid hhi hs lo hlo ht hbase => ?_
    obtain ⟨rfl, rfl⟩ := ht
    have hnew : (Temp.virtual (lo + 1)).Drawn lo (lo + 1) := Temp.drawn_succ (Nat.le_refl lo)
    have hsave := (hs (Nat.le_succ_of_le hbase)).saveIn (hnew.not_within hbase)
      hnew.within.not_drawn
    refine hsave.congr fun t => ?_
    rw [← Temp.drawn_succ_iff, or_comm, Temp.drawn_or_drawn (Nat.le_succ lo) hhi]
  · refine .bind h fun staged => ?_
    split
    · refine .bind .temp fun t => .pure fun hi mid hhi ht lo hlo hs hbase => ?_
      obtain ⟨rfl, rfl⟩ := ht
      have hnew : (Temp.virtual (mid + 1)).Drawn mid (mid + 1) := Temp.drawn_succ (Nat.le_refl mid)
      have hsave := (hs hbase).saveIn (hnew.not_within (Nat.le_trans hbase hlo))
        fun hdrawn => hdrawn.within.not_drawn hnew
      refine hsave.congr fun t => ?_
      rw [← Temp.drawn_succ_iff, Temp.drawn_or_drawn hlo (Nat.le_succ mid)]
    · next hcall =>
      refine .pure fun hi lo _ hs hbase => { hs hbase with form := ?_ }
      exact (hs hbase).form.resolve_right fun hsurfaced => hcall hsurfaced.1

theorem retains_pair {stage : Fresh (Staged Expr)} {rest : Fresh (Staged γ)}
    (h : stage.Yields (Retains base source .operand)) (h' : rest.Yields (Retains base source' r)) :
    (pair stage rest).Yields (Retains base (source ++ source') r.pair) := by
  refine .bind h fun head => .bind h' fun tail => ?_
  split
  · refine .pure fun hi mid hhi ht lo hlo hh hbase => ?_
    have hpair := (hh hbase).pair (ht (Nat.le_trans hbase hlo)) (apart_drawn hbase hlo)
    exact hpair.congr fun t => Temp.drawn_or_drawn hlo hhi
  · refine .bind .temp fun t => .pure fun hi last hhi' ht mid hhi htail lo hlo hh hbase => ?_
    obtain ⟨rfl, rfl⟩ := ht
    -- The operand is saved in a temporary that is drawn behind those of both sides.
    have hnew : (Temp.virtual (last + 1)).Drawn last (last + 1) :=
      Temp.drawn_succ (Nat.le_refl last)
    have hold := hnew.not_within (Nat.le_trans hbase (Nat.le_trans hlo hhi))
    have hsave := (hh hbase).expr.saveIn hold fun hdrawn =>
      (hdrawn.within.mono hhi).not_drawn hnew
    have hapart := (apart_drawn hbase hlo).insert hold fun hdrawn => hdrawn.within.not_drawn hnew
    refine (hsave.pair (htail (Nat.le_trans hbase hlo)) hapart).congr fun t => ?_
    rw [or_right_comm, Temp.drawn_or_drawn hlo hhi, ← Temp.drawn_succ_iff,
      Temp.drawn_or_drawn (Nat.le_trans hlo hhi) (Nat.le_succ last)]

theorem retains_map {rest : Fresh (Staged γ)} (h : rest.Yields (Retains base source r))
    {r' : Reading δ} (g : γ → δ) (hsource : source' = source ++ more)
    (hevents : ∀ v, r.form v → r'.events (g v) = r.events v ++ more)
    (htemps : ∀ v, r'.temps (g v) ⊆ r.temps v) (hform : ∀ v, r.form v → r'.form (g v)) :
    (do let staged ← rest; pure ⟨staged.effects, g staged.value⟩ : Fresh (Staged δ)).Yields
      (Retains base source' r') := by
  subst hsource
  exact .bind h fun _ => .pure fun _ _ _ hs hbase =>
    (hs hbase).map g more (hevents _) (htemps _) (hform _)

theorem retains_finish {rest : Fresh (Staged γ)} (h : rest.Yields (Retains base source r))
    {last : γ → Stmt} (hevents : ∀ v, (last v).events = r.events v ++ more)
    (hlast : ∀ v, r.form v →
      (r.events v ++ more).filter (·.isOld base) = r.events v ++ more)
    (htemps : ∀ v, ∀ t ∈ (last v).temps, t.Within base ∨ t ∈ r.temps v) :
    (do let staged ← rest; pure (staged.finish last)).Yields (Arranged base (source ++ more)) :=
  .bind h fun _ => .pure fun _ _ _ hs hbase =>
    (hs hbase).finish last more (fun _ => hevents _) (hlast _) (htemps _)
      fun _ ht => ht.not_within hbase

/-- Nothing happens in two operands, so only what is added has to be old. -/
theorem filter_isOld_pair (hmore : more.filter (·.isOld base) = more) (p : Expr × Expr)
    (hp : Reading.operand.pair.form p) :
    (Reading.operand.pair.events p ++ more).filter (·.isOld base) =
      Reading.operand.pair.events p ++ more := by
  obtain ⟨hl, hr⟩ := hp
  have hr : p.2.events = [] := hr
  simpa [Reading.pair, Reading.operand, hl, hr] using hmore

mutual

theorem Expr.retains_stage : ∀ e : Expr, (∀ t ∈ e.temps, t.Within base) →
    e.stage.Yields (Retains base e.events .expr)
  | .const _, h => .pure fun n _ => .plain n rfl h (.inl rfl)
  | .name _, h => .pure fun n _ => .plain n rfl h (.inl rfl)
  | .temp _, h => .pure fun n _ => .plain n rfl h (.inl rfl)
  | .binop op lhs rhs, h => by
    obtain ⟨hl, hr⟩ := List.forall_mem_append.1 h
    have hpair := retains_pair (retains_operand lhs (lhs.retains_stage hl))
      (retains_operand rhs (rhs.retains_stage hr))
    rw [Expr.stage_binop]
    refine retains_map hpair (fun p => Expr.binop op p.1 p.2) (List.append_nil _).symm
      (fun _ _ => (List.append_nil _).symm) (fun _ => List.Subset.refl _) fun v hv => .inl ?_
    exact List.append_eq_nil_iff.2 hv
  | .mem address, h => by
    have haddress := retains_operand address (address.retains_stage h)
    rw [Expr.stage_mem]
    exact retains_map haddress Expr.mem (List.append_nil _).symm
      (fun _ _ => (List.append_nil _).symm) (fun _ => List.Subset.refl _) fun v hv => .inl hv
  | .call function args, h => by
    obtain ⟨hf, has⟩ := List.forall_mem_append.1 h
    have hpair := retains_pair (retains_operand function (function.retains_stage hf))
      (Expr.retains_stageAll args has)
    rw [Expr.stage_call]
    refine retains_map hpair (fun p => Expr.call p.1 p.2) rfl ?_ (fun _ => List.Subset.refl _) ?_
    · rintro v ⟨-, -, hlength⟩
      exact congrArg (fun n => v.1.events ++ Expr.eventsAll v.2 ++ [.call n]) hlength
    · rintro v ⟨hf, has, -⟩
      refine .inr ⟨rfl, v.2.length, ?_⟩
      rw [Expr.events, hf, has]
      rfl
  | .eseq stmt value, h => by
    obtain ⟨hs, hv⟩ := List.forall_mem_append.1 h
    refine .bind (stmt.arranged_canonical hs) fun first =>
      .bind (value.retains_stage hv) fun staged =>
        .pure fun hi mid hhi hstaged lo hlo hfirst hbase => ?_
    have hbehind := (hstaged (Nat.le_trans hbase hlo)).behind (hfirst hbase)
      (apart_drawn hbase hlo)
    exact hbehind.congr fun t => Temp.drawn_or_drawn hlo hhi
  termination_by structural e => e

theorem Expr.retains_stageAll : ∀ es : List Expr, (∀ t ∈ Expr.tempsAll es, t.Within base) →
    (Expr.stageAll es).Yields (Retains base (Expr.eventsAll es) (.operands es.length))
  | [], h => .pure fun n _ => .plain n rfl h ⟨rfl, rfl⟩
  | e :: rest, h => by
    obtain ⟨he, hrest⟩ := List.forall_mem_append.1 h
    have hpair := retains_pair (retains_operand e (e.retains_stage he))
      (Expr.retains_stageAll rest hrest)
    refine retains_map hpair (fun p => p.1 :: p.2) (List.append_nil _).symm
      (fun _ _ => (List.append_nil _).symm) (fun _ => List.Subset.refl _) ?_
    rintro v ⟨hv, hvs, hlength⟩
    exact ⟨List.append_eq_nil_iff.2 ⟨hv, hvs⟩, congrArg (· + 1) hlength⟩
  termination_by structural es => es

theorem Expr.arranged_stageInto : ∀ (target source : Expr) {stage : Fresh (Staged Expr)}
    {events : List Event}, (∀ t ∈ target.temps, t.Within base) →
    stage.Yields (Retains base events .expr) →
    (Expr.stageInto source stage target).Yields (Arranged base (target.eventsInto events))
  | .temp t, _, _, _, h, hstage => by
    have ht : t.Within base := h t List.mem_cons_self
    refine retains_finish hstage (fun _ => rfl) (fun v hv => ?_) fun v x hx => ?_
    · have hevents : (Reading.expr.events v).filter (·.isOld base) = Reading.expr.events v :=
        Expr.Settled.filter_isOld hv base
      rw [List.filter_append, hevents]
      simp [Event.isOld_write.2 ht]
    · rcases List.mem_cons.1 hx with rfl | hx
      · exact .inl ht
      · exact .inr hx
  | .mem address, source, _, _, h, hstage => by
    have hpair := retains_pair (retains_operand address (address.retains_stage h))
      (retains_operand source hstage)
    rw [Expr.stageInto_mem]
    exact retains_finish hpair (fun _ => rfl) (filter_isOld_pair rfl) fun _ _ => .inr
  | .eseq stmt target, source, _, _, h, hstage => by
    obtain ⟨hs, ht⟩ := List.forall_mem_append.1 h
    exact .bind (stmt.arranged_canonical hs) fun first =>
      .bind (target.arranged_stageInto source ht hstage) fun rest =>
        .pure fun hi mid hhi hrest lo hlo hfirst => hfirst.append hrest hlo hhi
  | .const _, _, _, _, _, _ => .throw _
  | .name _, _, _, _, _, _ => .throw _
  | .binop .., _, _, _, _, _ => .throw _
  | .call .., _, _, _, _, _ => .throw _
  termination_by structural target => target

theorem Branch.arranged_canonical : ∀ b : Branch, (∀ t ∈ b.temps, t.Within base) →
    b.canonical.Yields (Arranged base b.events)
  | .jump target labels, h => by
    rw [Branch.canonical_jump]
    refine retains_finish (retains_operand target (target.retains_stage h)) (fun _ => rfl)
      (fun v hv => ?_) fun _ _ => .inr
    have hv : v.events = [] := hv
    simp [Reading.operand, hv, Event.isOld]
  | .cjump _ lhs rhs _ _, h => by
    obtain ⟨hl, hr⟩ := List.forall_mem_append.1 h
    have hpair := retains_pair (retains_operand lhs (lhs.retains_stage hl))
      (retains_operand rhs (rhs.retains_stage hr))
    rw [Branch.canonical_cjump]
    exact retains_finish hpair (fun _ => rfl) (filter_isOld_pair rfl) fun _ _ => .inr
  termination_by structural b => b

/-- **Staging keeps effects in order**, and writes each temporary that it draws once, before it is
read. -/
theorem Stmt.arranged_canonical : ∀ stmt : Stmt, (∀ t ∈ stmt.temps, t.Within base) →
    stmt.canonical.Yields (Arranged base stmt.events)
  | .seq first second, h => by
    obtain ⟨hf, hs⟩ := List.forall_mem_append.1 h
    exact .bind (first.arranged_canonical hf) fun head =>
      .bind (second.arranged_canonical hs) fun tail =>
        .pure fun hi mid hhi htail lo hlo hhead => hhead.append htail hlo hhi
  | .label l, _ => .pure fun n _ =>
    { (Introduces.nil n).concat (by simp [Stmt.temps]) (by simp [Stmt.events]) with events := rfl }
  | .move target source, h => by
    obtain ⟨ht, hs⟩ := List.forall_mem_append.1 h
    rw [Stmt.canonical_move]
    exact target.arranged_stageInto source ht (source.retains_stage hs)
  | .eval expr, h => by
    rw [Stmt.canonical_eval]
    refine .bind (expr.retains_stage h) fun staged => .pure fun hi lo _ hs hbase => ?_
    unfold evaluate
    split
    · next hconst =>
      -- Nothing happens in the constant that is dropped.
      refine ⟨(hs hbase).effects, ?_⟩
      have hevents := (hs hbase).events
      rw [hconst] at hevents
      exact (List.append_nil _).symm.trans hevents
    · have hfinish := (hs hbase).finish .eval [] (fun _ => (List.append_nil _).symm)
        (fun hv => ?_) (fun _ => .inr) fun _ ht => ht.not_within hbase
      · rwa [List.append_nil] at hfinish
      · rw [List.append_nil]
        exact Expr.Settled.filter_isOld hv base
  | .branch b, h => b.arranged_canonical h
  termination_by structural s => s

end

end

/-! ## The main result -/

/-- **Canonicalization keeps effects in order.**  Without writes to temporaries that were drawn,
what happens in the statements is what happens in the source, each event once.  Every temporary
that was drawn is written by one statement and read behind it only; and no other new temporary
occurs. -/
theorem canonicalize_keeps_effects {stmt : Stmt} {code : List Stmt} {w w' : Workspace}
    (htemps : ∀ t ∈ stmt.temps, t.Within w.supply.temps)
    (h : (Pipeline.canonicalize stmt).run w = (.ok code, w')) :
    oldEvents w.supply.temps code = stmt.events ∧
    (∀ t : Temp, t.Drawn w.supply.temps w'.supply.temps → SavedOnce t code) ∧
    ∀ s ∈ code, ∀ t ∈ s.temps,
      t.Within w.supply.temps ∨ t.Drawn w.supply.temps w'.supply.temps := by
  obtain ⟨-, -, harranged⟩ := stmt.arranged_canonical htemps (run_canonicalize_eq_ok h)
  have harranges := harranged (Nat.le_refl _)
  exact ⟨harranges.events, harranges.saved, harranges.temps⟩

/-- A temporary that is compared is changed by what it is compared with; this also stores a word at
an address that is the result of a call. -/
def entangled : Stmt :=
  .branch (.cjump .lt (.temp (.virtual 1))
    (.eseq (.seq (.move (.temp (.virtual 1)) (.const 2))
        (.move (.mem (.call (.name (.named "f")) [])) (.temp (.virtual 1))))
      (.call (.name (.named "g")) [.temp (.virtual 1), .const 3]))
    (.named "a") (.named "b"))

theorem entangled_keeps_effects :
    ∃ code w', (Pipeline.canonicalize entangled).run
        { supply := ⟨1, 0⟩, frame := { name := .named "f" } } = (.ok code, w') ∧
      oldEvents 1 code = [.write (.virtual 1), .call 0, .store, .call 2,
        .cjump .lt (.named "a") (.named "b")] ∧
      ∀ t : Temp, t.Drawn 1 w'.supply.temps → SavedOnce t code := by
  have htemps : ∀ t ∈ entangled.temps, t.Within 1 := by
    simp [entangled, Stmt.temps, Branch.temps, Expr.temps, Expr.tempsAll]
  have hrun : (Pipeline.canonicalize entangled).run
      { supply := ⟨1, 0⟩, frame := { name := .named "f" } } = (.ok _, _) := rfl
  obtain ⟨hevents, hsaved, -⟩ := canonicalize_keeps_effects htemps hrun
  exact ⟨_, _, hrun, hevents, hsaved⟩

end Lowering
