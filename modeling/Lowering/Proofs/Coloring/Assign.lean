import Lowering.Proofs.Coloring.Run

/-!
# Colours are proper

The nodes on the stack are coloured one after another.  What one node gets is not
changed later, and it differs from what was there for its neighbours.  With the links
between neighbours, two temporaries that interfere never get the same colour.

## Main definitions

* `Coloring.assigned_of_notMem`, `Coloring.ne_of_assigned` — what colouring the stack does.
* `color_proper` — interfering temporaries get different colours.
* `color_palette` — virtual temporaries get registers of the palette.
-/

namespace Lowering

namespace Coloring

variable {s : Coloring} {colors : Colors} {t c : Temp} {ts : List Temp}

/-! ## Looking up leaders -/

theorem findAll_eq (h : s.aliases.Ends) (ts : List Temp) : ∃ p, s.aliases.Shortens p ∧
    s.findAll ts = (ts.map s.leader, { s with aliases := p }) := by
  induction ts generalizing s with
  | nil => exact ⟨s.aliases, h.shortens, rfl⟩
  | cons t ts ih =>
    have hfirst := h.find t
    obtain ⟨p, hp, heq⟩ := ih (s := (s.find t).2) hfirst.ends
    have hleader : (s.find t).2.leader = s.leader := funext hfirst.root
    have hcons : s.findAll (t :: ts) =
        (s.leader t :: ((s.find t).2.findAll ts).1, ((s.find t).2.findAll ts).2) := rfl
    refine ⟨p, hfirst.trans hp, ?_⟩
    rw [hcons, heq, hleader]
    rfl

/-- The colours of the neighbours of a node. -/
def takenColors (s : Coloring) (colors : Colors) (t : Temp) : List Temp :=
  (s.graph.neighboursOf t).toList.filterMap fun u => colors[s.leader u]?

/-- The first colour that no neighbour of the node has. -/
def freeColor? (s : Coloring) (colors : Colors) (t : Temp) : Option Temp :=
  s.palette.find? fun c => !(s.takenColors colors t).contains c

/-- Colouring one node after another, with leaders that are known. -/
def assigned (s : Coloring) (colors : Colors) : List Temp → Colors × List Temp
  | [] => (colors, [])
  | t :: rest =>
    match s.freeColor? colors t with
    | some c => s.assigned (colors.insert t c) rest
    | none => ((s.assigned colors rest).1, t :: (s.assigned colors rest).2)

theorem freeColor?_shorten {p : Aliases} (hp : s.aliases.Shortens p) (colors : Colors) (t : Temp) :
    { s with aliases := p }.freeColor? colors t = s.freeColor? colors t := by
  have hleader : { s with aliases := p }.leader = s.leader := funext hp.root
  rw [freeColor?, freeColor?, takenColors, takenColors, hleader]

theorem assigned_shorten {p : Aliases} (hp : s.aliases.Shortens p) (colors : Colors)
    (ts : List Temp) : { s with aliases := p }.assigned colors ts = s.assigned colors ts := by
  induction ts generalizing colors with
  | nil => rfl
  | cons t ts ih => simp only [assigned, freeColor?_shorten hp, ih]

theorem findColor_eq (h : s.aliases.Ends) (colors : Colors) (t : Temp) : ∃ p,
    s.aliases.Shortens p ∧
      s.findColor colors t = (s.freeColor? colors t, { s with aliases := p }) := by
  obtain ⟨p, hp, heq⟩ := findAll_eq h (s.graph.neighboursOf t).toList
  refine ⟨p, hp, ?_⟩
  rw [findColor, heq, freeColor?, takenColors]
  simp only [List.filterMap_map]
  rfl

/-- **Looking up leaders while colours are assigned changes nothing but pointers.** -/
theorem assign_eq (h : s.aliases.Ends) (colors : Colors) (ts : List Temp) : ∃ p,
    s.aliases.Shortens p ∧
      s.assign colors ts = (s.assigned colors ts, { s with aliases := p }) := by
  induction ts generalizing s colors with
  | nil => exact ⟨s.aliases, h.shortens, rfl⟩
  | cons t ts ih =>
    obtain ⟨p, hp, hfirst⟩ := findColor_eq h colors t
    rw [assign, assigned, hfirst]
    cases s.freeColor? colors t with
    | none =>
      obtain ⟨q, hq, heq⟩ := ih (s := { s with aliases := p }) hp.ends colors
      refine ⟨q, hp.trans hq, ?_⟩
      simp only [heq, assigned_shorten hp]
    | some c =>
      obtain ⟨q, hq, heq⟩ := ih (s := { s with aliases := p }) hp.ends (colors.insert t c)
      refine ⟨q, hp.trans hq, ?_⟩
      simp only [heq, assigned_shorten hp]

/-! ## Colouring the stack -/

theorem mem_takenColors : c ∈ s.takenColors colors t ↔
    ∃ u ∈ s.graph.neighboursOf t, colors[s.leader u]? = some c := by
  simp [takenColors]

theorem freeColor?_eq_some (h : s.freeColor? colors t = some c) :
    c ∈ s.palette ∧ ∀ u ∈ s.graph.neighboursOf t, colors[s.leader u]? ≠ some c := by
  have hfree : c ∉ s.takenColors colors t := by simpa using List.find?_some h
  exact ⟨List.mem_of_find?_eq_some h, fun u hu heq => hfree (mem_takenColors.2 ⟨u, hu, heq⟩)⟩

theorem freeColor?_eq_none (h : s.freeColor? colors t = none) :
    ∀ c ∈ s.palette, ∃ u ∈ s.graph.neighboursOf t, colors[s.leader u]? = some c := by
  intro c hc
  have hall := List.find?_eq_none.1 h c hc
  exact mem_takenColors.1 (by simpa using hall)

theorem assigned_cons (s : Coloring) (colors : Colors) (t : Temp) (ts : List Temp) :
    (∃ c, s.freeColor? colors t = some c ∧ s.assigned colors (t :: ts) =
      s.assigned (colors.insert t c) ts) ∨
    s.freeColor? colors t = none ∧ s.assigned colors (t :: ts) =
      ((s.assigned colors ts).1, t :: (s.assigned colors ts).2) := by
  rw [assigned]
  split
  · next c h => exact .inl ⟨c, h, rfl⟩
  · next h => exact .inr ⟨h, rfl⟩

/-- What is not on the stack keeps its colour. -/
theorem assigned_of_notMem (h : t ∉ ts) : (s.assigned colors ts).1[t]? = colors[t]? := by
  induction ts generalizing colors with
  | nil => rfl
  | cons u ts ih =>
    rw [List.mem_cons, not_or] at h
    rcases assigned_cons s colors u ts with ⟨c, -, heq⟩ | ⟨-, heq⟩ <;> rw [heq]
    · rw [ih h.2]
      simp [Std.TreeMap.getElem?_insert, Ne.symm h.1]
    · exact ih h.2

/-- A node is coloured from the palette, and differently from what its neighbours stand
for, if that is not coloured later. -/
theorem ne_of_assigned {earlier later : List Temp} (hnd : (earlier ++ t :: later).Nodup)
    (hcolors : colors[t]? = none) (h : (s.assigned colors (earlier ++ t :: later)).1[t]? = some c) :
    c ∈ s.palette ∧ ∀ u ∈ s.graph.neighboursOf t, s.leader u ∉ t :: later →
      (s.assigned colors (earlier ++ t :: later)).1[s.leader u]? ≠ some c := by
  induction earlier generalizing colors with
  | nil =>
    rw [List.nil_append] at hnd h ⊢
    have hlater : t ∉ later := (List.nodup_cons.1 hnd).1
    rcases assigned_cons s colors t later with ⟨c', hfree, heq⟩ | ⟨-, heq⟩
    · rw [heq] at h ⊢
      obtain rfl : c' = c := by simpa [assigned_of_notMem hlater] using h
      obtain ⟨hpalette, hne⟩ := freeColor?_eq_some hfree
      refine ⟨hpalette, fun u hu hul => ?_⟩
      rw [List.mem_cons, not_or] at hul
      rw [assigned_of_notMem hul.2, Std.TreeMap.getElem?_insert]
      simpa [Ne.symm hul.1] using hne u hu
    · rw [heq] at h
      simp [assigned_of_notMem hlater, hcolors] at h
  | cons u earlier ih =>
    rw [List.cons_append] at hnd h ⊢
    obtain ⟨hu, hnd⟩ := List.nodup_cons.1 hnd
    have hut : u ≠ t := fun heq => hu (by simp [heq])
    rcases assigned_cons s colors u (earlier ++ t :: later) with
      ⟨c', -, heq⟩ | ⟨-, heq⟩ <;> rw [heq] at h ⊢
    · exact ih hnd (by simp [Std.TreeMap.getElem?_insert, hut, hcolors]) h
    · exact ih hnd hcolors h

/-- A node without a colour had every colour taken, by what is not coloured later. -/
theorem of_mem_assigned (hnd : ts.Nodup) (hcolors : ∀ u ∈ ts, colors[u]? = none)
    (h : t ∈ (s.assigned colors ts).2) :
    ∃ earlier later, ts = earlier ++ t :: later ∧ ∃ taken : Colors,
      (∀ u ∈ later, taken[u]? = none) ∧
      ∀ c ∈ s.palette, ∃ u ∈ s.graph.neighboursOf t, taken[s.leader u]? = some c := by
  induction ts generalizing colors with
  | nil => simp [assigned] at h
  | cons u ts ih =>
    obtain ⟨hu, hnd⟩ := List.nodup_cons.1 hnd
    have hrest : ∀ x ∈ ts, colors[x]? = none := fun x hx => hcolors x (List.mem_cons_of_mem u hx)
    rcases assigned_cons s colors u ts with ⟨c, -, heq⟩ | ⟨hfree, heq⟩ <;>
      rw [heq] at h
    · have hrest' : ∀ x ∈ ts, (colors.insert u c)[x]? = none := by
        intro x hx
        have hux : u ≠ x := fun heq => hu (heq ▸ hx)
        simp [Std.TreeMap.getElem?_insert, hux, hrest x hx]
      obtain ⟨earlier, later, rfl, htaken⟩ := ih hnd hrest' h
      exact ⟨u :: earlier, later, rfl, htaken⟩
    · rcases List.mem_cons.1 h with rfl | h
      · exact ⟨[], ts, rfl, colors, hrest, freeColor?_eq_none hfree⟩
      · obtain ⟨earlier, later, rfl, htaken⟩ := ih hnd hrest h
        exact ⟨u :: earlier, later, rfl, htaken⟩

theorem mem_of_mem_assigned (h : t ∈ (s.assigned colors ts).2) : t ∈ ts := by
  induction ts generalizing colors with
  | nil => simp [assigned] at h
  | cons u ts ih =>
    rcases assigned_cons s colors u ts with ⟨c, -, heq⟩ | ⟨-, heq⟩ <;> rw [heq] at h
    · exact List.mem_cons_of_mem u (ih h)
    · rcases List.mem_cons.1 h with rfl | h
      · exact List.mem_cons_self
      · exact List.mem_cons_of_mem u (ih h)

/-! ## The colours of all nodes -/

/-- Colours that are set one after another, for some temporaries that have one. -/
theorem getElem?_foldl {step : Colors → Temp → Colors} (color : Temp → Option Temp)
    (hstep : ∀ all u, (step all u)[t]? = if u = t then (color u).or all[t]? else all[t]?)
    (ts : List Temp) (all : Colors) :
    (ts.foldl step all)[t]? = if t ∈ ts then (color t).or all[t]? else all[t]? := by
  induction ts generalizing all with
  | nil => simp
  | cons u ts ih =>
    rw [List.foldl_cons, ih, hstep]
    by_cases hu : u = t
    · subst hu
      cases color u <;> simp
    · simp [hu, Ne.symm hu]

theorem getElem?_registerColors (s : Coloring) (t : Temp) :
    s.registerColors[t]? = if t ∈ s.graph.nodes ∧ t.isRegister = true then some t else none := by
  refine (getElem?_foldl some (fun all u => ?_) _ ∅).trans ?_
  · simp [Std.TreeMap.getElem?_insert]
  · simp

theorem getElem?_colorMerged (h : s.aliases.Ends) (colors : Colors) (t : Temp) :
    (s.colorMerged colors)[t]? = if t ∈ s.nodesIn .coalesced then
      (colors[s.leader t]?).or colors[t]? else colors[t]? := by
  obtain ⟨_, -, heq⟩ := findAll_eq h (s.nodesIn .coalesced)
  rw [colorMerged, heq, ← List.map_prod_left_eq_zip, List.foldl_map]
  refine getElem?_foldl (fun u => colors[s.leader u]?) (fun all u => ?_) _ colors
  dsimp only
  by_cases hu : u = t
  · subst hu
    cases colors[s.leader u]? <;> simp
  · cases colors[s.leader u]? <;> simp [Std.TreeMap.getElem?_insert, hu]

/-- The colours of the registers and of the nodes on the stack. -/
def stackColors (s : Coloring) : Colors := (s.assigned s.registerColors s.stack).1

/-- Looking up leaders in between does not show in the colours of merged nodes. -/
private theorem getElem?_outcome (h : s.aliases.Ends) (t : Temp) :
    s.outcome.colors[t]? = if t ∈ s.nodesIn .coalesced then
      (s.stackColors[s.leader t]?).or s.stackColors[t]? else s.stackColors[t]? := by
  obtain ⟨p, hp, heq⟩ := assign_eq h s.registerColors s.stack
  have hleader : { s with aliases := p }.leader t = s.leader t := hp.root t
  have hcolors : s.outcome.colors = { s with aliases := p }.colorMerged s.stackColors := by
    rw [outcome, heq]
    rfl
  rw [hcolors, getElem?_colorMerged hp.ends, hleader]
  rfl

/-- Every temporary has the colour of the node that it stands for. -/
theorem getElem?_colors_outcome (h : s.Sound) (t : Temp) :
    s.outcome.colors[t]? = s.stackColors[s.leader t]? := by
  rw [getElem?_outcome h.linked.ends]
  split
  · next hmem =>
    have hstatus : s.status t = .coalesced := of_decide_eq_true (List.mem_filter.1 hmem).2
    have hstack : t ∉ s.stack := by
      rw [h.linked.stack, hstatus]
      simp
    have hvirtual := (h.work.isRegister_eq_false (t := t) (by simp [hstatus]) (by simp [hstatus])).2
    have hnone : s.stackColors[t]? = none := by
      rw [stackColors, assigned_of_notMem hstack, getElem?_registerColors]
      simp [hvirtual]
    rw [hnone, Option.or_none]
  · next hmem =>
    have hstatus : s.status t ≠ .coalesced := by
      intro hs
      refine hmem (List.mem_filter.2 ⟨(h.work.node t).1 (by simp [hs]), by simp [hs]⟩)
    rw [h.linked.leader_self t hstatus]

/-- A node that was not taken out is coloured only if it is a register. -/
theorem stackColors_of_notMem (ht : t ∉ s.stack) (hc : s.stackColors[t]? = some c) :
    t.isRegister = true ∧ c = t := by
  rw [stackColors, assigned_of_notMem ht, getElem?_registerColors] at hc
  split at hc
  · next h => exact ⟨h.2, (Option.some.inj hc).symm⟩
  · cases hc

theorem Sound.isRegister_of_mem_stack (h : s.Sound) (ht : t ∈ s.stack) : t.isRegister = false := by
  have hstatus := (h.linked.stack t).1 ht
  exact (h.work.isRegister_eq_false (by simp [hstatus]) (by simp [hstatus])).2

/-- A node on the stack is coloured from the palette, and differently from what its
neighbours stand for, if that is not coloured later. -/
theorem Sound.stackColors_ne (h : s.Sound) {earlier later : List Temp}
    (hsplit : s.stack = earlier ++ t :: later) (hc : s.stackColors[t]? = some c) :
    c ∈ s.palette ∧ ∀ u ∈ s.graph.neighboursOf t, s.leader u ∉ t :: later →
      s.stackColors[s.leader u]? ≠ some c := by
  have hnd := h.linked.nodup
  have hreg := h.isRegister_of_mem_stack (t := t) (by simp [hsplit])
  have hnone : s.registerColors[t]? = none := by
    rw [getElem?_registerColors]
    simp [hreg]
  rw [stackColors, hsplit] at hc ⊢
  exact ne_of_assigned (hsplit ▸ hnd) hnone hc

private theorem Sound.ne_of_later (h : s.Sound) {a b c d : Temp} {earlier later : List Temp}
    (hab : s.graph.adjacent a b = true) (hsplit : s.stack = earlier ++ s.leader a :: later)
    (hb : s.leader b ∉ later) (hc : s.stackColors[s.leader a]? = some c)
    (hd : s.stackColors[s.leader b]? = some d) : c ≠ d := by
  rintro rfl
  have hreg := h.isRegister_of_mem_stack (t := s.leader a) (by simp [hsplit])
  obtain ⟨x, hx, hxb⟩ := h.linked.below a b hab earlier later hsplit hb
  have hne : s.leader b ∉ s.leader a :: later := by
    simp [hb, (h.linked.apart a b hab).symm]
  refine (h.stackColors_ne hsplit hc).2 x ((h.linked.graph.adjacent_iff hreg).1 hx) ?_ ?_
  · rwa [hxb]
  · rwa [hxb]

/-- **Neighbours have different colours.** -/
theorem Sound.colors_ne (h : s.Sound) {a b c d : Temp} (hab : s.graph.adjacent a b = true)
    (hc : s.outcome.colors[a]? = some c) (hd : s.outcome.colors[b]? = some d) : c ≠ d := by
  rw [getElem?_colors_outcome h] at hc hd
  have hba : s.graph.adjacent b a = true := by rwa [h.linked.graph.adjacent_comm]
  by_cases ha : s.leader a ∈ s.stack
  · obtain ⟨earlier, later, hsplit⟩ := List.append_of_mem ha
    by_cases hb : s.leader b ∈ later
    · -- Of two nodes on the stack, look at the one that is coloured last.
      obtain ⟨between, last, rfl⟩ := List.append_of_mem hb
      have hsplit' : s.stack = (earlier ++ s.leader a :: between) ++ s.leader b :: last := by
        simp [hsplit]
      have hnd := h.linked.nodup
      rw [hsplit', List.nodup_append] at hnd
      refine (h.ne_of_later hba hsplit' (fun hl => ?_) hd hc).symm
      exact hnd.2.2 (s.leader a) (by simp) (s.leader a) (List.mem_cons_of_mem _ hl) rfl
    · exact h.ne_of_later hab hsplit hb hc hd
  · by_cases hb : s.leader b ∈ s.stack
    · obtain ⟨earlier, later, hsplit⟩ := List.append_of_mem hb
      have hlater : s.leader a ∉ later := fun hl => ha (by simp [hsplit, hl])
      exact (h.ne_of_later hba hsplit hlater hd hc).symm
    · rw [(stackColors_of_notMem ha hc).2, (stackColors_of_notMem hb hd).2]
      exact h.linked.apart a b hab

/-- Virtual temporaries have colours of the palette. -/
theorem Sound.colors_mem_palette (h : s.Sound) (hwithin : s.CopiesWithin)
    (ht : t.isRegister = false) (hc : s.outcome.colors[t]? = some c) : c ∈ s.palette := by
  rw [getElem?_colors_outcome h] at hc
  by_cases hs : s.leader t ∈ s.stack
  · obtain ⟨earlier, later, hsplit⟩ := List.append_of_mem hs
    exact (h.stackColors_ne hsplit hc).1
  · obtain ⟨hr, rfl⟩ := stackColors_of_notMem hs hc
    simpa [Temp.isAllocatable, hr] using h.work.host hwithin t ht

/-- Registers have no colours but themselves. -/
theorem Sound.colors_register (h : s.Sound) (ht : t.isRegister = true)
    (hc : s.outcome.colors[t]? = some c) : c = t := by
  have hstack : t ∉ s.stack := fun hs => by
    simp [h.isRegister_of_mem_stack hs] at ht
  have hstatus : s.status t ≠ .coalesced := by
    intro hs
    simp [(h.work.isRegister_eq_false (t := t) (by simp [hs]) (by simp [hs])).2] at ht
  rw [getElem?_colors_outcome h, h.linked.leader_self t hstatus] at hc
  exact (stackColors_of_notMem hstack hc).2

/-- Only nodes have colours. -/
theorem Sound.mem_nodes_of_colors (h : s.Sound) (hc : s.outcome.colors[t]? = some c) :
    t ∈ s.graph.nodes := by
  by_contra hmem
  have hstatus : s.status t = .initial := not_not.1 fun hs => hmem ((h.work.node t).1 hs)
  have hstack : t ∉ s.stack := by simp [h.linked.stack, hstatus]
  rw [getElem?_colors_outcome h, h.linked.leader_self t (by simp [hstatus]), stackColors,
    assigned_of_notMem hstack, getElem?_registerColors] at hc
  simp [hmem] at hc

theorem mem_spilled_outcome (h : s.Sound) :
    t ∈ s.outcome.spilled ↔ t ∈ (s.assigned s.registerColors s.stack).2 := by
  obtain ⟨_, -, heq⟩ := assign_eq h.linked.ends s.registerColors s.stack
  rw [outcome, heq, Std.ExtTreeSet.mem_toList, TempSet.mem_ofList]

theorem nodup_spilled_outcome (s : Coloring) : s.outcome.spilled.Nodup :=
  TempSet.nodup_toList (TempSet.ofList (s.assign s.registerColors s.stack).1.2)

/-- Only virtual nodes are spilled. -/
theorem Sound.of_mem_spilled (h : s.Sound) (ht : t ∈ s.outcome.spilled) :
    t ∈ s.graph.nodes ∧ t.isRegister = false := by
  have hstatus := (h.linked.stack t).1 (mem_of_mem_assigned ((mem_spilled_outcome h).1 ht))
  exact h.work.isRegister_eq_false (by simp [hstatus]) (by simp [hstatus])

/-- **Only nodes that were taken in hope are spilled**: the others have fewer rivals than
there are colours. -/
theorem Sound.selected_of_mem_spilled (h : s.Sound) (hpalette : s.palette.Nodup)
    (ht : t ∈ s.outcome.spilled) : .selected t ∈ s.decisions := by
  have hnone : ∀ u ∈ s.stack, s.registerColors[u]? = none := by
    intro u hu
    rw [getElem?_registerColors]
    simp [h.isRegister_of_mem_stack hu]
  obtain ⟨earlier, later, hsplit, taken, hlater, htaken⟩ :=
    of_mem_assigned h.linked.nodup hnone ((mem_spilled_outcome h).1 ht)
  refine (h.linked.scarce t earlier later hsplit).resolve_right fun hlt => ?_
  -- Every colour of the palette is that of some rival.
  have hsub : s.palette.toFinset ⊆ (s.rivals t later).image fun u => (taken[u]?).getD u := by
    intro c hc
    obtain ⟨u, hu, huc⟩ := htaken c (List.mem_toFinset.1 hc)
    refine Finset.mem_image.2 ⟨s.leader u, mem_rivals.2 ⟨⟨u, hu, rfl⟩, fun hl => ?_⟩, ?_⟩
    · simp [hlater _ hl] at huc
    · rw [huc, Option.getD_some]
  have hcard := (Finset.card_le_card hsub).trans Finset.card_image_le
  rw [List.toFinset_card_of_nodup hpalette] at hcard
  exact absurd (hcard.trans_lt hlt) (lt_irrefl _)

end Coloring

/-! ## Colouring a graph -/

section

variable {palette : List Temp} {unspillable : TempSet} {g : Interference} {a b c d t : Temp}

/-- The copies of a graph are between nodes that take part in the assignment. -/
def Interference.MovesWithin (g : Interference) (palette : List Temp) : Prop :=
  ∀ m ∈ g.moves, ∀ t, t = m.dst ∨ t = m.src → t ∈ g.nodes ∧ t.isAllocatable palette = true

/-- What a state reached from the start has kept of it. -/
structure Coloring.Reached (palette : List Temp) (unspillable : TempSet) (g : Interference)
    (s : Coloring) : Prop where
  sound : s.Sound
  palette : s.palette = palette
  unspillable : s.unspillable = unspillable
  nodes : s.graph.nodes = g.nodes
  moves : s.graph.moves = g.moves
  adjacent : ∀ a b, g.adjacent a b = true → s.graph.adjacent a b = true

theorem Coloring.reached_start (hg : g.WellFormed) (hmoves : g.MovesWithin palette) :
    Reached palette unspillable g (start palette unspillable g) := by
  have hs := starts_start palette unspillable g
  exact ⟨hs.sound hg fun m hm t ht => (hmoves m hm t ht).1, hs.palette, hs.unspillable,
    by rw [hs.graph], by rw [hs.graph], fun a b hab => by rwa [hs.graph]⟩

theorem Coloring.Reached.step {s s' : Coloring} (h : Reached palette unspillable g s)
    (hs : s.step? = some s') : Reached palette unspillable g s' := by
  have hf := h.sound.follows hs
  refine ⟨h.sound.step hs, hf.palette.trans h.palette, hf.unspillable.trans h.unspillable,
    hf.nodes.trans h.nodes, hf.moves.trans h.moves, fun a b hab => ?_⟩
  rcases hf.change with ⟨hgraph, -⟩ | ⟨u, v, -, -, m⟩
  · rw [hgraph]
    exact h.adjacent a b hab
  · exact (m.adjacent a b).2 (.inl (h.adjacent a b hab))

theorem Coloring.reached_run (unspillable : TempSet) (hg : g.WellFormed)
    (hmoves : g.MovesWithin palette) :
    Reached palette unspillable g (start palette unspillable g).run :=
  runSteps_induction (fun _ _ h hs => h.step hs) _ (reached_start hg hmoves)

variable (hg : g.WellFormed) (hmoves : g.MovesWithin palette)

include hg hmoves

/-- **Interfering temporaries get different colours.** -/
theorem color_proper (hab : g.adjacent a b = true)
    (hc : (color palette unspillable g).colors[a]? = some c)
    (hd : (color palette unspillable g).colors[b]? = some d) : c ≠ d := by
  have hr := Coloring.reached_run unspillable hg hmoves
  exact hr.sound.colors_ne (hr.adjacent a b hab) hc hd

/-- Virtual temporaries get registers of the palette. -/
theorem color_palette (ht : t.isRegister = false)
    (hc : (color palette unspillable g).colors[t]? = some c) : c ∈ palette := by
  have hr := Coloring.reached_run unspillable hg hmoves
  have hwithin : (Coloring.start palette unspillable g).run.CopiesWithin := by
    rw [Coloring.CopiesWithin, hr.moves, hr.palette]
    exact fun m hm t ht => (hmoves m hm t ht).2
  exact hr.palette ▸ hr.sound.colors_mem_palette hwithin ht hc

/-- Registers get themselves. -/
theorem color_register_eq (ht : t.isRegister = true)
    (hc : (color palette unspillable g).colors[t]? = some c) : c = t :=
  (Coloring.reached_run unspillable hg hmoves).sound.colors_register ht hc

/-- What has a colour is a node. -/
theorem mem_nodes_of_color (hc : (color palette unspillable g).colors[t]? = some c) :
    t ∈ g.nodes := by
  have hr := Coloring.reached_run unspillable hg hmoves
  exact hr.nodes ▸ hr.sound.mem_nodes_of_colors hc

/-- What is spilled is a virtual node. -/
theorem of_mem_spilled_color (ht : t ∈ (color palette unspillable g).spilled) :
    t ∈ g.nodes ∧ t.isRegister = false := by
  have hr := Coloring.reached_run unspillable hg hmoves
  obtain ⟨hmem, hreg⟩ := hr.sound.of_mem_spilled ht
  exact ⟨hr.nodes ▸ hmem, hreg⟩

end

end Lowering
