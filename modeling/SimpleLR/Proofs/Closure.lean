import SimpleLR.Item.Closure
import SimpleLR.Proofs.ItemKey
/-!
# Closure is the least closed superset

An item `j` predicts the items `B -> · γ` of every alternative `γ` of the symbol `B` after its
dot; a set of items is closed when it holds every item that one of its items predicts. The main
statements:

* `mem_closurePass` — one pass adds exactly the predicted items that are not there yet;
* `closure_closed` and `closure_least` — the closure of a seed holds the seed, is closed, and
  lies in every closed set that holds the seed, so its items depend only on the seed's items;
* `closure_seed_first_least_idempotent` — as a list, the closure is the seed without repeats
  followed by dot-first items only, each once, so closing it again gives the same list;
* `mem_goto?` — goto moves the dot over the symbol and closes.

The pass loop needs no more passes than there are rules: every pass that adds something adds
the dot-first item of a rule that was missing.
-/

namespace SimpleLR

namespace Grammar

variable (g : Grammar)

/-- Item `j` predicts `x`: `x` is `B -> · γ` for the symbol `B` after the dot of `j` and an
alternative `γ` of `B`. -/
def Predicts (j x : Item) : Prop :=
  ∃ b, j.next? = some b ∧ ∃ rhs ∈ g.alternatives b, x = Item.initial b rhs

/-- A set of items is closed when it holds every item that one of its items predicts. -/
def Closed (s : Item → Prop) : Prop := ∀ j x, s j → g.Predicts j x → s x

/-- The item is one of the grammar's: the rule `lhs -> rhs` exists, and the dot stands within
its body. -/
def ItemOf (x : Item) : Prop := ∃ r ∈ g.rules, r.lhs = x.lhs ∧ r.rhs = x.rhs ∧ x.dot ≤ x.body.length

variable {g}

theorem mem_alternatives {b : Symbol} {rhs : List Symbol} :
    rhs ∈ g.alternatives b ↔ ∃ r ∈ g.productions, r.lhs = b ∧ r.rhs = rhs := by
  simp [alternatives, and_assoc]

theorem Predicts.dot_eq_zero {j x : Item} (h : g.Predicts j x) : x.dot = 0 := by
  obtain ⟨b, _, rhs, _, rfl⟩ := h
  rfl

theorem itemOf_of_predicts {j x : Item} (h : g.Predicts j x) : g.ItemOf x := by
  obtain ⟨b, _, rhs, hrhs, rfl⟩ := h
  obtain ⟨r, hr, hlhs, hrhs⟩ := mem_alternatives.1 hrhs
  exact ⟨r, List.mem_cons_of_mem _ hr, hlhs, hrhs, Nat.zero_le _⟩

/-! ## One pass -/

/-- One step of staging the items that `B`'s alternatives call for. -/
private def stageStep (items : List Item) (b : Symbol) (staged : List Item) (rhs : List Symbol) :
    List Item :=
  if Item.initial b rhs ∈ items ∨ Item.initial b rhs ∈ staged then staged
  else staged ++ [Item.initial b rhs]

private theorem closurePass_eq (items : List Item) :
    g.closurePass items = items.foldl (fun staged i =>
      (i.next?.map fun b => (g.alternatives b).foldl (stageStep items b) staged).getD staged) [] :=
  rfl

private theorem mem_foldl_stageStep (items : List Item) (b : Symbol) (x : Item) :
    ∀ (alts : List (List Symbol)) (staged : List Item),
      x ∈ alts.foldl (stageStep items b) staged ↔
        x ∈ staged ∨ x ∉ items ∧ ∃ rhs ∈ alts, x = Item.initial b rhs := by
  intro alts
  induction alts with
  | nil => simp
  | cons rhs alts ih =>
    intro staged
    rw [List.foldl_cons, ih]
    unfold stageStep
    split
    · rename_i hin
      constructor
      · rintro (h | ⟨hx, rhs', hrhs', rfl⟩)
        · exact .inl h
        · exact .inr ⟨hx, rhs', List.mem_cons_of_mem _ hrhs', rfl⟩
      · rintro (h | ⟨hx, rhs', hrhs', rfl⟩)
        · exact .inl h
        · rcases List.mem_cons.1 hrhs' with rfl | hrhs'
          · exact .inl (hin.resolve_left hx)
          · exact .inr ⟨hx, rhs', hrhs', rfl⟩
    · rename_i hout
      simp only [List.mem_append, List.mem_cons, List.not_mem_nil, or_false]
      constructor
      · rintro ((h | rfl) | ⟨hx, rhs', hrhs', rfl⟩)
        · exact .inl h
        · exact .inr ⟨fun h => hout (.inl h), rhs, .inl rfl, rfl⟩
        · exact .inr ⟨hx, rhs', .inr hrhs', rfl⟩
      · rintro (h | ⟨hx, rhs', rfl | hrhs', rfl⟩)
        · exact .inl (.inl h)
        · exact .inl (.inr rfl)
        · exact .inr ⟨hx, rhs', hrhs', rfl⟩

/-- One pass adds exactly the predicted items that are missing. -/
theorem mem_closurePass {items : List Item} {x : Item} :
    x ∈ g.closurePass items ↔ x ∉ items ∧ ∃ j ∈ items, g.Predicts j x := by
  rw [closurePass_eq]
  -- the pass folds over the same items that the freshness test looks at; generalize the former
  suffices h : ∀ (js staged : List Item), x ∈ js.foldl (fun staged i =>
      (i.next?.map fun b => (g.alternatives b).foldl (stageStep items b) staged).getD staged)
        staged ↔ x ∈ staged ∨ x ∉ items ∧ ∃ j ∈ js, g.Predicts j x by
    simpa using h items []
  intro js
  induction js with
  | nil => simp
  | cons j js ih =>
    intro staged
    rw [List.foldl_cons, ih]
    cases hj : j.next? with
    | none =>
      have hno : ∀ x, ¬g.Predicts j x := fun x ⟨b, hb, _⟩ => by simp [hj] at hb
      simp [hno]
    | some b =>
      simp only [Option.map_some, Option.getD_some, mem_foldl_stageStep]
      constructor
      · rintro ((h | ⟨hx, rhs, hrhs, rfl⟩) | ⟨hx, j', hj', hp⟩)
        · exact .inl h
        · exact .inr ⟨hx, j, List.mem_cons_self, b, hj, rhs, hrhs, rfl⟩
        · exact .inr ⟨hx, j', List.mem_cons_of_mem _ hj', hp⟩
      · rintro (h | ⟨hx, j', hj', hp⟩)
        · exact .inl (.inl h)
        · rcases List.mem_cons.1 hj' with rfl | hj'
          · obtain ⟨b', hb', rhs, hrhs, rfl⟩ := hp
            rw [hj, Option.some.injEq] at hb'
            subst hb'
            exact .inl (.inr ⟨hx, rhs, hrhs, rfl⟩)
          · exact .inr ⟨hx, j', hj', hp⟩

theorem closed_of_closurePass_eq_nil {items : List Item} (h : g.closurePass items = []) :
    g.Closed (· ∈ items) := by
  intro j x hj hp
  by_cases hx : x ∈ items
  · exact hx
  · have hmem : x ∈ g.closurePass items := mem_closurePass.2 ⟨hx, j, hj, hp⟩
    simp [h] at hmem

theorem closurePass_eq_nil_of_closed {items : List Item} (h : g.Closed (· ∈ items)) :
    g.closurePass items = [] := by
  apply List.eq_nil_iff_forall_not_mem.2
  intro x hx
  obtain ⟨hout, j, hj, hp⟩ := mem_closurePass.1 hx
  exact hout (h j x hj hp)

private theorem nodup_foldl_stageStep (items : List Item) (b : Symbol) :
    ∀ (alts : List (List Symbol)) (staged : List Item), staged.Nodup →
      (alts.foldl (stageStep items b) staged).Nodup := by
  intro alts
  induction alts with
  | nil => exact fun _ h => h
  | cons rhs alts ih =>
    intro staged h
    rw [List.foldl_cons]
    apply ih
    unfold stageStep
    split
    · exact h
    · rename_i hout
      refine List.nodup_append.2 ⟨h, List.pairwise_singleton _ _, ?_⟩
      rintro a ha b hb rfl
      exact hout (.inr (List.mem_singleton.1 hb ▸ ha))

theorem nodup_closurePass (items : List Item) : (g.closurePass items).Nodup := by
  rw [closurePass_eq]
  suffices h : ∀ (js staged : List Item), staged.Nodup → (js.foldl (fun staged i =>
      (i.next?.map fun b => (g.alternatives b).foldl (stageStep items b) staged).getD staged)
        staged).Nodup from h items [] List.nodup_nil
  intro js
  induction js with
  | nil => exact fun _ h => h
  | cons j js ih =>
    intro staged h
    rw [List.foldl_cons]
    apply ih
    cases j.next? with
    | none => exact h
    | some b => exact nodup_foldl_stageStep items b _ _ h

/-! ## The pass loop -/

theorem closeFrom_succ (fuel : Nat) (items : List Item) :
    g.closeFrom (fuel + 1) items =
      if g.closurePass items = [] then items else g.closeFrom fuel (items ++ g.closurePass items) := by
  simp only [closeFrom]
  split <;> simp_all

theorem subset_closeFrom (fuel : Nat) {items : List Item} {x : Item} (hx : x ∈ items) :
    x ∈ g.closeFrom fuel items := by
  induction fuel generalizing items with
  | zero => exact hx
  | succ fuel ih =>
    rw [closeFrom_succ]
    split
    · exact hx
    · exact ih (List.mem_append_left _ hx)

theorem closeFrom_least (fuel : Nat) {items : List Item} {s : Item → Prop}
    (hs : g.Closed s) (hitems : ∀ x ∈ items, s x) : ∀ x ∈ g.closeFrom fuel items, s x := by
  induction fuel generalizing items with
  | zero => exact hitems
  | succ fuel ih =>
    rw [closeFrom_succ]
    split
    · exact hitems
    · apply ih
      intro x hx
      rcases List.mem_append.1 hx with hx | hx
      · exact hitems x hx
      · obtain ⟨_, j, hj, hp⟩ := mem_closurePass.1 hx
        exact hs j x (hitems j hj) hp

/-- The dot-first items of the rules that the list lacks, counted with repeats. -/
def missingInitials (items : List Item) : Nat :=
  g.productions.countP fun r => decide (Item.initial r.lhs r.rhs ∉ items)

private theorem countP_lt_countP {α : Type} {p q : α → Bool} :
    ∀ {l : List α}, (∀ a ∈ l, q a = true → p a = true) → (∃ a ∈ l, p a = true ∧ q a = false) →
      l.countP q < l.countP p
  | [], _, ⟨_, ha, _⟩ => absurd ha List.not_mem_nil
  | a :: l, hle, ⟨b, hb, hpb, hqb⟩ => by
    have hle' : ∀ a ∈ l, q a = true → p a = true := fun a ha => hle a (List.mem_cons_of_mem _ ha)
    have hmono : l.countP q ≤ l.countP p := List.countP_mono_left hle'
    simp only [List.countP_cons]
    rcases List.mem_cons.1 hb with rfl | hb
    · simp [hpb, hqb]
      omega
    · have hlt := countP_lt_countP hle' ⟨b, hb, hpb, hqb⟩
      have hqp : (if q a = true then 1 else 0) ≤ (if p a = true then 1 else 0) := by
        by_cases hq : q a = true
        · simp [hq, hle a List.mem_cons_self hq]
        · simp [hq]
      omega

theorem missingInitials_append_lt {items : List Item} (h : g.closurePass items ≠ []) :
    g.missingInitials (items ++ g.closurePass items) < g.missingInitials items := by
  obtain ⟨x, hx⟩ := List.exists_mem_of_ne_nil _ h
  obtain ⟨hxi, j, _, b, _, rhs, hrhs, rfl⟩ := mem_closurePass.1 hx
  obtain ⟨r, hr, rfl, rfl⟩ := mem_alternatives.1 hrhs
  apply countP_lt_countP
  · intro r' _ hr'
    simp only [List.mem_append, not_or, decide_eq_true_eq] at hr' ⊢
    exact hr'.1
  · exact ⟨r, hr, by simpa using hxi, by simp [hx]⟩

theorem closeFrom_closed {fuel : Nat} {items : List Item} (h : g.missingInitials items < fuel) :
    g.Closed (· ∈ g.closeFrom fuel items) := by
  induction fuel generalizing items with
  | zero => omega
  | succ fuel ih =>
    rw [closeFrom_succ]
    split
    · exact closed_of_closurePass_eq_nil ‹_›
    · exact ih (Nat.lt_of_lt_of_le (missingInitials_append_lt ‹_›) (Nat.le_of_lt_succ h))

theorem closeFrom_eq_append (fuel : Nat) (items : List Item) :
    ∃ added, g.closeFrom fuel items = items ++ added ∧
      ∀ x ∈ added, x ∉ items ∧ ∃ b, ∃ rhs ∈ g.alternatives b, x = Item.initial b rhs := by
  induction fuel generalizing items with
  | zero => exact ⟨[], by simp [closeFrom], by simp⟩
  | succ fuel ih =>
    rw [closeFrom_succ]
    split
    · exact ⟨[], by simp, by simp⟩
    · obtain ⟨added, heq, hadded⟩ := ih (items ++ g.closurePass items)
      refine ⟨g.closurePass items ++ added, by rw [heq, List.append_assoc], ?_⟩
      intro x hx
      rcases List.mem_append.1 hx with hx | hx
      · obtain ⟨hout, j, -, b, -, rhs, hrhs, rfl⟩ := mem_closurePass.1 hx
        exact ⟨hout, b, rhs, hrhs, rfl⟩
      · obtain ⟨hout, hform⟩ := hadded x hx
        exact ⟨fun h => hout (List.mem_append_left _ h), hform⟩

theorem nodup_closeFrom (fuel : Nat) {items : List Item} (h : items.Nodup) :
    (g.closeFrom fuel items).Nodup := by
  induction fuel generalizing items with
  | zero => exact h
  | succ fuel ih =>
    rw [closeFrom_succ]
    split
    · exact h
    · apply ih
      refine List.nodup_append.2 ⟨h, nodup_closurePass items, ?_⟩
      rintro x hx y hy rfl
      exact (mem_closurePass.1 hy).1 hx

/-! ## Closure -/

theorem subset_closure {seed : List Item} {x : Item} (hx : x ∈ seed) : x ∈ g.closure seed :=
  subset_closeFrom _ (List.mem_eraseDups.2 hx)

theorem closure_closed (seed : List Item) : g.Closed (· ∈ g.closure seed) := by
  apply closeFrom_closed
  exact Nat.lt_succ_of_le (List.countP_le_length)

/-- The closure lies in every closed set that holds the seed. -/
theorem closure_least {seed : List Item} {s : Item → Prop} (hs : g.Closed s)
    (hseed : ∀ x ∈ seed, s x) : ∀ x ∈ g.closure seed, s x :=
  closeFrom_least _ hs fun x hx => hseed x (List.mem_eraseDups.1 hx)

theorem mem_closure {seed : List Item} {x : Item} :
    x ∈ g.closure seed ↔ x ∈ seed ∨ ∃ j ∈ g.closure seed, g.Predicts j x := by
  constructor
  · apply closure_least
    · rintro j x (hj | ⟨j', hj', hp'⟩) hp
      · exact .inr ⟨j, subset_closure hj, hp⟩
      · exact .inr ⟨j, closure_closed seed j' j hj' hp', hp⟩
    · exact fun x hx => .inl hx
  · rintro (hx | ⟨j, hj, hp⟩)
    · exact subset_closure hx
    · exact closure_closed seed j x hj hp

theorem closure_congr {seed seed' : List Item} (h : ∀ x, x ∈ seed ↔ x ∈ seed') (x : Item) :
    x ∈ g.closure seed ↔ x ∈ g.closure seed' := by
  constructor
  · exact closure_least (closure_closed seed') (fun y hy => subset_closure ((h y).1 hy)) x
  · exact closure_least (closure_closed seed) (fun y hy => subset_closure ((h y).2 hy)) x

/-! ## The closure as a list

The items of the seed come first, each once and in the order of their first occurrence; after
them come only dot-first items of the grammar's rules, each once. Closing a closure again adds
nothing, so it gives back the same list, and the key of a closure depends only on the items of
its seed.
-/

theorem closure_eq_append (seed : List Item) :
    ∃ added, g.closure seed = seed.eraseDups ++ added ∧
      ∀ x ∈ added, ∃ b, ∃ rhs ∈ g.alternatives b, x = Item.initial b rhs := by
  obtain ⟨added, heq, hadded⟩ := g.closeFrom_eq_append (g.productions.length + 1) seed.eraseDups
  exact ⟨added, heq, fun x hx => (hadded x hx).2⟩

theorem nodup_closure (seed : List Item) : (g.closure seed).Nodup :=
  nodup_closeFrom _ (nodup_eraseDups seed)

theorem closure_closure (seed : List Item) : g.closure (g.closure seed) = g.closure seed := by
  have hclosed := closurePass_eq_nil_of_closed (closure_closed (g := g) seed)
  show g.closeFrom (g.productions.length + 1) (g.closure seed).eraseDups = g.closure seed
  rw [eraseDups_eq_self (nodup_closure seed), closeFrom_succ, if_pos hclosed]

theorem itemSetKey_closure_congr {seed seed' : List Item} (h : ∀ x, x ∈ seed ↔ x ∈ seed') :
    itemSetKey (g.closure seed) = itemSetKey (g.closure seed') :=
  itemSetKey_eq_iff.2 (closure_congr h)

/-- The closure of a seed is a list without repeats that starts with the seed's items, each once
and in the order of their first occurrence, and goes on with dot-first items of the grammar's
rules only; its items are the least closed set that holds the seed. So closing it again gives
the same list, and its key depends only on the items of the seed. -/
theorem closure_seed_first_least_idempotent (g : Grammar) (seed : List Item) :
    (g.closure seed).Nodup ∧
      (∃ added, g.closure seed = seed.eraseDups ++ added ∧
        ∀ x ∈ added, ∃ b, ∃ rhs ∈ g.alternatives b, x = Item.initial b rhs) ∧
      (∀ x ∈ seed, x ∈ g.closure seed) ∧ g.Closed (· ∈ g.closure seed) ∧
      (∀ s : Item → Prop, g.Closed s → (∀ x ∈ seed, s x) → ∀ x ∈ g.closure seed, s x) ∧
      g.closure (g.closure seed) = g.closure seed ∧
      ∀ seed' : List Item, (∀ x, x ∈ seed ↔ x ∈ seed') →
        itemSetKey (g.closure seed) = itemSetKey (g.closure seed') :=
  ⟨nodup_closure seed, closure_eq_append seed, fun _ hx => subset_closure hx,
    closure_closed seed, fun _ hs hseed => closure_least hs hseed, closure_closure seed,
    fun _ h => itemSetKey_closure_congr h⟩

theorem itemOf_closure {seed : List Item} (hseed : ∀ x ∈ seed, g.ItemOf x) :
    ∀ x ∈ g.closure seed, g.ItemOf x :=
  closure_least (fun _ _ _ hp => itemOf_of_predicts hp) hseed

/-! ## Goto -/

theorem Item.next?_eq_some {i : Item} {b : Symbol} :
    i.next? = some b ↔ ∃ h : i.dot < i.body.length, i.body[i.dot] = b := by
  simp [Item.next?, List.getElem?_eq_some_iff]

theorem mem_moveOver {items : List Item} {b : Symbol} {x : Item} :
    x ∈ moveOver items b ↔ ∃ i ∈ items, i.next? = some b ∧ x = i.advance := by
  simp only [moveOver, List.mem_map, List.mem_filter, beq_iff_eq]
  constructor
  · rintro ⟨i, ⟨hi, hb⟩, rfl⟩
    exact ⟨i, hi, hb, rfl⟩
  · rintro ⟨i, hi, hb, rfl⟩
    exact ⟨i, ⟨hi, hb⟩, rfl⟩

theorem goto?_eq_some {items next : List Item} {b : Symbol} :
    g.goto? items b = some next ↔
      (∃ i ∈ items, i.next? = some b) ∧ next = g.closure (moveOver items b) := by
  unfold goto?
  cases hm : moveOver items b with
  | nil =>
    simp only [reduceCtorEq, false_iff, not_and]
    rintro ⟨i, hi, hb⟩
    have : i.advance ∈ moveOver items b := mem_moveOver.2 ⟨i, hi, hb, rfl⟩
    simp [hm] at this
  | cons y ys =>
    have hy : y ∈ moveOver items b := by simp [hm]
    obtain ⟨i, hi, hb, -⟩ := mem_moveOver.1 hy
    simp only [Option.some.injEq]
    constructor
    · rintro rfl
      exact ⟨⟨i, hi, hb⟩, rfl⟩
    · rintro ⟨-, rfl⟩
      rfl

theorem isSome_goto? {items : List Item} {b : Symbol} :
    (g.goto? items b).isSome ↔ ∃ i ∈ items, i.next? = some b := by
  cases h : g.goto? items b with
  | none =>
    simp only [Option.isSome_none, Bool.false_eq_true, false_iff]
    intro hex
    have := (goto?_eq_some (g := g)).2 ⟨hex, rfl⟩
    rw [h] at this
    cases this
  | some next => simpa using (goto?_eq_some.1 h).1

/-- An item of a goto is an item moved over the symbol or a dot-first item that an item of the
goto predicts. -/
theorem mem_goto? {items next : List Item} {b : Symbol} (h : g.goto? items b = some next)
    {x : Item} :
    x ∈ next ↔ (∃ i ∈ items, i.next? = some b ∧ x = i.advance) ∨ ∃ j ∈ next, g.Predicts j x := by
  obtain ⟨-, rfl⟩ := goto?_eq_some.1 h
  rw [mem_closure, mem_moveOver]

theorem itemOf_advance {i : Item} {b : Symbol} (hi : g.ItemOf i) (hb : i.next? = some b) :
    g.ItemOf i.advance := by
  obtain ⟨r, hr, hl, hrhs, -⟩ := hi
  obtain ⟨hlt, -⟩ := Item.next?_eq_some.1 hb
  exact ⟨r, hr, hl, hrhs, hlt⟩

theorem itemOf_goto? {items next : List Item} {b : Symbol} (h : g.goto? items b = some next)
    (hitems : ∀ x ∈ items, g.ItemOf x) : ∀ x ∈ next, g.ItemOf x := by
  obtain ⟨-, rfl⟩ := goto?_eq_some.1 h
  apply itemOf_closure
  intro x hx
  obtain ⟨i, hi, hb, rfl⟩ := mem_moveOver.1 hx
  exact itemOf_advance (hitems i hi) hb

theorem goto?_congr {items items' next : List Item} {b : Symbol}
    (h : ∀ x, x ∈ items ↔ x ∈ items') (hnext : g.goto? items b = some next) :
    ∃ next', g.goto? items' b = some next' ∧ ∀ x, x ∈ next ↔ x ∈ next' := by
  obtain ⟨⟨i, hi, hb⟩, rfl⟩ := goto?_eq_some.1 hnext
  refine ⟨_, goto?_eq_some.2 ⟨⟨i, (h i).1 hi, hb⟩, rfl⟩, closure_congr ?_⟩
  intro x
  simp only [mem_moveOver, h]

end Grammar

theorem mem_symbolsAfterDot {items : List Item} {b : Symbol} :
    b ∈ symbolsAfterDot items ↔ ∃ i ∈ items, i.next? = some b := by
  simp [symbolsAfterDot]

end SimpleLR
